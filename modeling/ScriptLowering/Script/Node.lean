import ScriptLowering.Script.Form

/-!
# Script trees

A node is a form with an ordered list of operands. Everything that recurses does so over the operand
list, with the tables on forms for what a single node adds.
-/

namespace ScriptLowering.Script

/-- A script tree. -/
structure Node where
  form : Form
  /-- The operands, in slot order. -/
  operands : List Node

namespace Node

instance : Inhabited Node :=
  ⟨⟨.empty, []⟩⟩

/-! ### Equality -/

mutual

/-- Whether two trees have equal forms everywhere. -/
def same : Node → Node → Bool
  | ⟨f, xs⟩, ⟨g, ys⟩ => f == g && sameList xs ys

/-- Whether two lists of trees are the same, place by place. -/
def sameList : List Node → List Node → Bool
  | [], [] => true
  | x :: xs, y :: ys => same x y && sameList xs ys
  | _, _ => false

end

instance : BEq Node :=
  ⟨same⟩

/-! ### Constructors -/

/-- An empty slot. -/
def empty : Node :=
  ⟨.empty, []⟩

/-- A constant. -/
def literal (l : Literal) : Node :=
  ⟨.literal l, []⟩

/-- A truth constant. -/
def boolean (value : Bool) : Node :=
  literal (.boolean value)

/-- An integer constant of a primitive kind. -/
def integer (c : Core) (kind : Primitive) (value : Int64) : Node :=
  literal (.ofKind c kind value)

/-- A text constant. -/
def string (text : String) : Node :=
  literal (.string text)

/-- The absent value of a type. -/
def nullOf (type : Ty) : Node :=
  literal (.null type)

/-- The default value of a type. -/
def defaultOf (type : Ty) : Node :=
  literal (.defaultOf type)

/-- A variable. -/
def ofVariable (v : Variable) : Node :=
  ⟨.var v, []⟩

/-- A type as a value, or as the target of a static access. -/
def typeIdentifier (type : Ty) : Node :=
  ⟨.typeIdentifier type, []⟩

/-- A method as a value. -/
def methodIdentifier (method : Method) : Node :=
  ⟨.methodIdentifier method, []⟩

/-- What has no script form. -/
def unsupported (description : String) (arguments : List Node) : Node :=
  ⟨.unsupported description, arguments⟩

/-- A unary operation. -/
def unary (op : UnaryOp) (operand : Node) (result : Ty) : Node :=
  ⟨.unary op result, [operand]⟩

/-- A binary operation. -/
def binary (op : BinaryOp) (left right : Node) (result : Ty) : Node :=
  ⟨.binary op result, [left, right]⟩

/-- The negation of a truth value; a double negation cancels. -/
def logicalNot (c : Core) (operand : Node) : Node :=
  match operand with
  | ⟨.unary .logicalNot _, inner :: _⟩ => inner
  | ⟨.unary .logicalNot _, []⟩ => boolean true
  | _ => unary .logicalNot operand c.boolean

/-- A choice between two values. -/
def ternary (condition whenTrue whenFalse : Node) (result : Ty) : Node :=
  ⟨.ternary result, [condition, whenTrue, whenFalse]⟩

/-- Expressions in sequence; a single one stands for itself. -/
def comma : List Node → Node
  | [only] => only
  | expressions => ⟨.comma, expressions⟩

/-- A cast yet to be expanded. -/
def cast (value : Node) (type : Ty) (checked : Bool) : Node :=
  ⟨.cast type checked, [value]⟩

/-- Another type with the same representation. -/
def changeType (value : Node) (type : Ty) : Node :=
  ⟨.changeType type, [value]⟩

/-- A change of numeric representation. -/
def conversion (value : Node) (kind : ConversionKind) (type : Ty) (checked : Bool) : Node :=
  ⟨.conversion kind type checked, [value]⟩

/-- A call. -/
def invocation (method : Method) (dispatch : Dispatch) (explicitThis : Bool) (receiver : Node)
    (arguments : List Node) : Node :=
  ⟨.invocation method dispatch explicitThis, receiver :: arguments⟩

/-- A call of the runtime library. -/
def intrinsic (name : String) (result : Ty) (arguments : List Node) : Node :=
  ⟨.intrinsicCall name result, arguments⟩

/-- A field of a target, or of a type for static fields. -/
def fieldAccess (field : Field) (target : Node) : Node :=
  ⟨.fieldAccess field, [target]⟩

/-- An element of an array. -/
def elementAccess (element : Ty) (array : Node) (indices : List Node) : Node :=
  ⟨.elementAccess element, array :: indices⟩

/-- A property of a target, or of a type for static properties. -/
def propertyAccess (property : Property) (target : Node) (indices : List Node) : Node :=
  ⟨.propertyAccess property, target :: indices⟩

/-- The referent of a reference. -/
def dereference (reference : Node) : Node :=
  ⟨.dereference, [reference]⟩

/-- A copy of a value type. -/
def structCopy (value : Node) : Node :=
  ⟨.structCopy, [value]⟩

/-- A block without a label. -/
def block (statements : List Node) : Node :=
  ⟨.block none, statements⟩

/-- A block that is a jump target. -/
def labeledBlock (label : String) (statements : List Node) : Node :=
  ⟨.block (some label), statements⟩

/-- An expression evaluated for its effect. -/
def expressionStatement (expression : Node) : Node :=
  ⟨.expressionStatement, [expression]⟩

/-- A return, without a value when the slot is empty. -/
def returnValue (value : Node) : Node :=
  ⟨.returnValue, [value]⟩

/-- A throw. -/
def throwValue (exception : Node) : Node :=
  ⟨.throwValue, [exception]⟩

/-! ### Parts -/

/-- The operand in a slot. -/
def operand? (n : Node) (index : Nat) : Option Node :=
  n.operands[index]?

/-- The arguments of calls, property and element accesses; all operands of other nodes. -/
def arguments (n : Node) : List Node :=
  match n.form with
  | .invocation .. | .propertyAccess .. | .elementAccess .. | .elementReference .. =>
    n.operands.drop 1
  | _ => n.operands

/-- The variable of a variable node. -/
def var? (n : Node) : Option Variable :=
  match n.form with
  | .var v => some v
  | _ => none

/-- The constant of a constant node. -/
def literal? (n : Node) : Option Literal :=
  match n.form with
  | .literal l => some l
  | _ => none

/-- Whether the node is an empty slot. -/
def isEmpty (n : Node) : Bool :=
  match n.form with
  | .empty => true
  | _ => false

/-- Whether the node is an absent value. -/
def isNullLiteral (n : Node) : Bool :=
  n.literal?.any Literal.isNull

/-! ### Types -/

mutual

/-- The static type of the value of a node. -/
def computedType (c : Core) (r : Retyping) : Node → Ty
  | ⟨form, operands⟩ =>
    match form.typeRule c r with
    | .known t => t
    | .operand index => typeAt c r operands index
    | .referenceToFirst => .byRef (typeAt c r operands 0)
    | .referentOfFirst =>
      (typeAt c r operands 0).elementType?.getD (typeAt c r operands 0)
    | .pointerToReferent =>
      .pointer ((typeAt c r operands 0).elementType?.getD (typeAt c r operands 0))
    | .last => lastType c r operands

/-- The type of the node at a place, without a result where there is none. -/
def typeAt (c : Core) (r : Retyping) : List Node → Nat → Ty
  | [], _ => c.void
  | n :: _, 0 => computedType c r n
  | _ :: ns, index + 1 => typeAt c r ns index

/-- The type of the last node, without a result where there is none. -/
def lastType (c : Core) (r : Retyping) : List Node → Ty
  | [] => c.void
  | [n] => computedType c r n
  | _ :: n :: ns => lastType c r (n :: ns)

end

/-! ### Predicates -/

mutual

/-- Whether the node always has the same value and no effect. -/
def isConstant : Node → Bool
  | ⟨form, operands⟩ =>
    match form.constancy with
    | .always => true
    | .whenOperandsAre => allConstant operands
    | .never => false

/-- Whether all nodes are constant. -/
def allConstant : List Node → Bool
  | [] => true
  | n :: ns => n.isConstant && allConstant ns

end

mutual

/-- Whether evaluating the node may touch state outside the method. -/
def hasGlobalDependency : Node → Bool
  | ⟨form, operands⟩ => form.touchesGlobalState || anyGlobalDependency operands

/-- Whether some node has a global dependency. -/
def anyGlobalDependency : List Node → Bool
  | [] => false
  | n :: ns => n.hasGlobalDependency || anyGlobalDependency ns

end

mutual

/-- Whether evaluating the node twice may differ from evaluating it once. -/
def hasSideEffects : Node → Bool
  | ⟨form, operands⟩ => form.hasEffect || anySideEffects operands

/-- Whether some node has side effects. -/
def anySideEffects : List Node → Bool
  | [] => false
  | n :: ns => n.hasSideEffects || anySideEffects ns

end

/-- Whether the node names a location that can be assigned. -/
def isLocation (n : Node) : Bool :=
  n.form.isLocation

/-- Whether the node yields a reference and not a value. -/
def isReference (c : Core) (r : Retyping) (n : Node) : Bool :=
  n.form.isReferenceForm || (n.computedType c r).isByRef

/-! ### Text -/

mutual

/-- The text of a tree. -/
def text : Node → String
  | ⟨form, operands⟩ =>
    if form.isLeafText then form.text
    else form.text ++ "(" ++ textList form.slotNames "" operands ++ ")"

/-- The operands, with the names of their slots, each after a separator that is empty for the
first. -/
def textList : List String → String → List Node → String
  | _, _, [] => ""
  | names, separator, n :: ns =>
    separator ++ (match names with
      | name :: _ => name ++ ": "
      | [] => "") ++ n.text ++ textList names.tail ", " ns

end

/-! ### Descendants -/

mutual

/-- The nodes below a node in pre-order, by recursion. -/
def collectDescendants : Node → List Node
  | ⟨_, operands⟩ => collectForest operands

/-- The given nodes, each followed by the nodes below it. -/
def collectForest : List Node → List Node
  | [] => []
  | n :: ns => n :: (n.collectDescendants ++ collectForest ns)

end

mutual

/-- The number of nodes of a tree. -/
def size : Node → Nat
  | ⟨_, operands⟩ => 1 + sizeList operands

/-- The number of nodes of all trees. -/
def sizeList : List Node → Nat
  | [] => 0
  | n :: ns => n.size + sizeList ns

end

theorem sizeList_append (xs ys : List Node) :
    sizeList (xs ++ ys) = sizeList xs + sizeList ys := by
  induction xs with
  | nil => rw [List.nil_append, sizeList, Nat.zero_add]
  | cons n xs ih => rw [List.cons_append, sizeList, sizeList, ih, Nat.add_assoc]

theorem sizeList_reverse (ns : List Node) : sizeList ns.reverse = sizeList ns := by
  induction ns with
  | nil => rfl
  | cons n ns ih =>
    rw [List.reverse_cons, sizeList_append, ih, sizeList, sizeList, sizeList]
    omega

/-- A walk over trees: the nodes that are still to be answered, the next one on top of the stack. -/
structure Walk where
  /-- The top is at the end. -/
  stack : Array Node

namespace Walk

/-- The walk over the nodes below a node. -/
def below (n : Node) : Walk :=
  ⟨n.operands.reverse.toArray⟩

/-- Answers the node on top and puts its operands in its place, the first one on top. -/
def next? (w : Walk) : Option (Node × Walk) :=
  w.stack.back?.map fun n => (n, ⟨w.stack.pop ++ n.operands.reverse⟩)

theorem next?_eq_some_iff {w rest : Walk} {n : Node} :
    w.next? = some (n, rest)
      ↔ ∃ others : Array Node, w.stack = others.push n ∧ rest.stack = others ++ n.operands.reverse := by
  rw [next?, Option.map_eq_some_iff]
  constructor
  · rintro ⟨_, hback, heq⟩
    cases heq
    obtain ⟨others, hstack⟩ := Array.back?_eq_some_iff.mp hback
    exact ⟨others, hstack, by rw [hstack, Array.pop_push]⟩
  · rintro ⟨others, hstack, hrest⟩
    refine ⟨n, by rw [hstack, Array.back?_push], ?_⟩
    rw [hstack, Array.pop_push, ← hrest]

/-- Every answer leaves fewer nodes below those on the stack. -/
theorem sizeList_of_next? {w rest : Walk} {n : Node} (h : w.next? = some (n, rest)) :
    sizeList rest.stack.toList < sizeList w.stack.toList := by
  obtain ⟨others, hstack, hrest⟩ := next?_eq_some_iff.mp h
  have hsize : n.size = 1 + sizeList n.operands := by
    cases n
    rw [size]
  rw [hstack, hrest, Array.toList_push, Array.toList_appendList, sizeList_append, sizeList_append,
    sizeList_reverse, sizeList, sizeList, hsize]
  omega

/-- All answers of a walk. -/
def toList (w : Walk) : List Node :=
  match _ : w.next? with
  | none => []
  | some (n, rest) => n :: rest.toList
termination_by sizeList w.stack.toList
decreasing_by exact sizeList_of_next? ‹_›

end Walk

/-- The nodes below a node in pre-order, with a stack. -/
def descendants (n : Node) : List Node :=
  (Walk.below n).toList

/-- The node and its operands. -/
def selfAndChildren (n : Node) : List Node :=
  n :: n.operands

/-- The node and all nodes below it, in pre-order. -/
def selfAndDescendants (n : Node) : List Node :=
  n :: n.collectDescendants

end Node

end ScriptLowering.Script
