import ScriptLowering.Lowering.Coercion

/-!
# Storage: variables, fields, elements and what addresses lead to

An address that is only read or written through collapses to the location itself; a reference stays
where one is needed. Storing a value type copies it, and storing `x op y` into a stable `x` becomes
`x op= y`.
-/

namespace ScriptLowering.Lowering

open Script

/-! ### Locations and copies -/

/-- The first operand of a node. -/
def firstOperand (n : Node) : Node :=
  n.operands.head?.getD .empty

/-- The location that a reference designates. The receiver of a value type is bound to the instance
and stays as it is. -/
def locationOf (c : Core) (r : Retyping) (node : Node) : Node :=
  match node.form with
  | .takeReference => firstOperand node
  | .memberReference f => .fieldAccess f (firstOperand node)
  | .elementReference element => .elementAccess element (firstOperand node) node.operands.tail
  | .var v =>
    if v.isThis then node
    else if v.isReference || (node.computedType c r).isByRef then .dereference node
    else node
  | .invocation m _ _ =>
    if m.returnType.isByRef then ⟨.resultDereference, [node]⟩ else node
  | _ => if (node.computedType c r).isByRef then .dereference node else node

/-- A copy of a value type that is read from a location; other values as they are. -/
def copied (c : Core) (r : Retyping) (node : Node) : Node :=
  if node.isLocation && (node.computedType c r).isStruct then .structCopy node else node

/-- What is left of an access to an ignored field. -/
def ignoredField (f : Field) : Node :=
  ⟨.ignoredMember f.name f.type, []⟩

/-- The value `x op y` that is stored into `x` without effects, as operator and `y`. -/
def foldable? (h : Hierarchy) (r : Retyping) (target value : Node) : Option (BinaryOp × Node) :=
  match value with
  | ⟨.binary op result, operands⟩ =>
    match op.toCompound? with
    | some compound =>
      if operands.head?.any (· == target)
          && h.same result (target.computedType h.core r)
          && !target.hasGlobalDependency && !target.hasSideEffects then
        some (compound, operands.getLast?.getD .empty)
      else
        none
    | none => none
  | _ => none

/-- Expressions before another one. -/
def afterPrelude (prelude : List Node) (expression : Node) : Node :=
  .comma (prelude ++ [expression])

/-- Whether an index can be evaluated more than once. -/
def isStableIndex (index : Node) : Bool :=
  index.isConstant || index.var?.isSome

/-! ### Pointers -/

/-- A pointer with an offset. -/
structure PointerPlace where
  pointer : Node
  offset : Node
  unit : OffsetUnit

/-- Whether a factor is the size of an element. -/
def isElementSize (element : Ty) (factor? : Option Node) : Bool :=
  match factor?.bind Node.literal? |>.bind Literal.toInt64? with
  | some factor => element.size > 0 && factor.toInt == element.size
  | none => false

/-- Splits a pointer sum into pointer and offset. A product of an index and the size of an element
is an offset in elements. -/
def splitPointer (address : Node) (element : Ty) : PointerPlace :=
  match address with
  | ⟨.pointerAdd _, operands⟩ =>
    let pointer := operands.head?.getD .empty
    let delta := operands[1]?.getD .empty
    match delta with
    | ⟨.binary .mul _, factors⟩ =>
      if isElementSize element factors[1]? then ⟨pointer, factors.head?.getD .empty, .elements⟩
      else ⟨pointer, delta, .bytes⟩
    | _ => ⟨pointer, delta, .bytes⟩
  | _ => ⟨address, .empty, .bytes⟩

/-- Reads through a pointer. -/
def pointerRead (address : Node) (element : Ty) : Node :=
  let place := splitPointer address element
  ⟨.pointerRead place.unit element, [place.pointer, place.offset]⟩

/-- Writes through a pointer. -/
def pointerWrite (address : Node) (element : Ty) (value : Node) : Node :=
  let place := splitPointer address element
  ⟨.pointerWrite place.unit element, [place.pointer, place.offset, value]⟩

namespace Lowerer

/-- The location that a reference designates. -/
def location (g : Lowerer) (node : Node) : Lower Node :=
  return locationOf g.core (← Lower.context).scope.retyping node

/-- A copy of a value type that is read from a location. -/
def copy (g : Lowerer) (node : Node) : Lower Node :=
  return copied g.core (← Lower.context).scope.retyping node

/-- A node that yields a reference; otherwise a failure that names its use. -/
def requireReference (g : Lowerer) (node : Node) (use : String) : Lower Node := do
  if node.isReference g.core (← Lower.context).scope.retyping then
    return node
  else
    throw (.referenceRequired use node)

/-! ### Stores -/

/-- Moves the indices that are not stable into temporaries, and answers the assignments of the
temporaries with the indices that remain. -/
def hoistEach (g : Lowerer) : List Node → Lower (List Node × List Node)
  | [] => return ([], [])
  | index :: rest => do
    if isStableIndex index then
      let (prelude, indices) ← g.hoistEach rest
      return (prelude, index :: indices)
    else
      let type ← g.typeOf index
      let temporary ← Lower.newTemporary type
      let (prelude, indices) ← g.hoistEach rest
      return (.binary .assign temporary index type :: prelude, temporary :: indices)

/-- Moves the indices of an element of a multi-dimensional array into temporaries, so that each is
evaluated once. Other targets are left as they are. -/
def hoistIndices (g : Lowerer) (target : Node) : Lower (List Node × Node) :=
  match target with
  | ⟨.elementAccess element, array :: first :: second :: rest⟩ => do
    let (prelude, indices) ← g.hoistEach (first :: second :: rest)
    return (prelude, .elementAccess element array indices)
  | _ => return ([], target)

/-- An assignment, or the compound assignment that it amounts to. -/
def store (g : Lowerer) (target value : Node) : Lower Node := do
  match foldable? g.env.types (← Lower.context).scope.retyping target value with
  | some (op, right) =>
    let (prelude, target) ← g.hoistIndices target
    let assignment ← g.compoundAssign op target right
    return afterPrelude prelude assignment
  | none => g.assign target value

/-- Writes through a reference or pointer. -/
def storeThrough (g : Lowerer) (address value : Node) (element : Ty) : Lower Node := do
  if (← g.typeOf address).isPointer then
    return pointerWrite address element value
  else
    match address.form with
    | .takeReference | .memberReference _ | .elementReference _ =>
      let target ← g.location address
      g.store target value
    | .var v =>
      if v.isThis then
        g.assign (.dereference address) value
      else
        return ⟨.writeThrough, [address, value]⟩
    | _ => return ⟨.writeThrough, [address, value]⟩

/-! ### Variables -/

/-- Lowers the load of a variable. -/
def loadLocal (g : Lowerer) (e : Cil.Expr) : Lower Node :=
  return .ofVariable (← g.resolve (← variableOperand e))

/-- Lowers the store of a variable. A packed array changes the type of an array variable. -/
def storeLocal (g : Lowerer) (e : Cil.Expr) : Lower Node := do
  let v ← g.resolve (← variableOperand e)
  let value ← g.expecting (← argument e 0) (← variableType v)
  let type ← g.typeOf value
  if type.isPackedArray && (← variableType v).isArray then
    Lower.modifyTable (·.retype v type)
  g.store (.ofVariable v) (← g.copy value)

/-- Lowers the address of a variable. -/
def localAddress (g : Lowerer) (e : Cil.Expr) : Lower Node := do
  let v ← g.resolve (← variableOperand e)
  Lower.ofExcept (Node.takeReference (.ofVariable v))

/-! ### Fields -/

/-- The target of a static access under a directive: the type, or the script text that stands for
it. -/
def typeTargetUnder (c : Core) (directive? : Option TypeDirective) (type : Ty) : Node :=
  match directive?.bind (·.replacement?) with
  | some text => ⟨.verbatim text [] c.type, []⟩
  | none => .typeIdentifier type

/-- The target of a static access. -/
def typeTarget (g : Lowerer) (type : Ty) : Lower Node :=
  return typeTargetUnder g.core (← g.typeDirective? type) type

/-- Lowers the target of a member access to a location. -/
def receiver (g : Lowerer) (e : Cil.Expr) : Lower Node := do
  let node ← g.raw e
  g.location node

/-- The target of a field. -/
def fieldTarget (g : Lowerer) (e : Cil.Expr) (f : Field) : Lower Node := do
  if f.isStatic then
    g.typeTarget f.declaringType
  else
    g.receiver (← argument e 0)

/-- Marks a value of a declared array type as packed. -/
def packed (value : Node) (declared : Ty) : Node :=
  match declared.elementType? with
  | some element =>
    if declared.isArray then .changeType value (Core.packedArrayOf element) else value
  | none => value

/-- Lowers the load of a field. -/
def loadField (g : Lowerer) (e : Cil.Expr) : Lower Node := do
  let f ← fieldOperand e
  let directive? ← g.fieldDirective? f
  if directive?.any (·.isIgnored) then
    return ignoredField f
  else
    let access := Node.fieldAccess f (← g.fieldTarget e f)
    return if directive?.any (·.isPackedArray) then packed access f.type else access

/-- Lowers the store of a field. -/
def storeField (g : Lowerer) (e : Cil.Expr) : Lower Node := do
  let f ← fieldOperand e
  if (← g.fieldDirective? f).any (·.isIgnored) then
    return ignoredField f
  else
    let target ← g.fieldTarget e f
    let value ← g.expecting (← argument e (if f.isStatic then 0 else 1)) f.type
    g.store (.fieldAccess f target) (← g.copy value)

/-- Lowers the address of a field. -/
def fieldAddress (g : Lowerer) (e : Cil.Expr) : Lower Node := do
  let f ← fieldOperand e
  let target ← g.fieldTarget e f
  Lower.ofExcept (Node.memberReference f target)

/-! ### Arrays -/

/-- Lowers the creation of an array. -/
def newArray (g : Lowerer) (e : Cil.Expr) : Lower Node := do
  let element ← typeOperand e
  let dimensions ← Lower.each (g.expecting · g.core.int32) e.arguments
  if dimensions.isEmpty then
    throw (.malformed (.noDimensions e.code))
  else
    return ⟨.newArray element dimensions.length, dimensions⟩

/-- Lowers an array with its elements. -/
def initArray (g : Lowerer) (e : Cil.Expr) : Lower Node := do
  let element ← typeOperand e
  let elements ← Lower.each (fun a => do g.copy (← g.expecting a element)) e.arguments
  return ⟨.arrayLiteral element, elements⟩

/-- Lowers the length of an array. -/
def arrayLength (g : Lowerer) (e : Cil.Expr) : Lower Node := do
  let array ← g.expression (← argument e 0)
  return .intrinsic "ArrayLength" g.core.int32 [array]

/-- Array, indices and element type of an element instruction. -/
structure ElementPlace where
  array : Node
  indices : List Node
  element : Ty

/-- Lowers the array and the indices, which are the arguments from the second up to `stop`. -/
def elementPlace (g : Lowerer) (e : Cil.Expr) (stop : Nat) : Lower ElementPlace := do
  let array ← g.expression (← argument e 0)
  let indices ← Lower.each g.expression ((e.arguments.take stop).drop 1)
  if indices.isEmpty then
    throw (.malformed (.noIndices e.code))
  else
    match e.type? with
    | some element => return ⟨array, indices, element⟩
    | none =>
      match (← g.typeOf array).elementType? with
      | some element => return ⟨array, indices, element⟩
      | none => throw (.malformed (.notAnArray e.code))

/-- Lowers the load of an element. -/
def loadElement (g : Lowerer) (e : Cil.Expr) : Lower Node := do
  let place ← g.elementPlace e e.arguments.length
  return .elementAccess place.element place.array place.indices

/-- Lowers the store of an element, whose value is the last argument. -/
def storeElement (g : Lowerer) (e : Cil.Expr) : Lower Node := do
  if e.arguments.isEmpty then
    throw (.malformed (.noArguments e.code))
  else
    let last := e.arguments.length - 1
    let place ← g.elementPlace e last
    let value ← g.expecting (← argument e last) place.element
    g.store (.elementAccess place.element place.array place.indices) (← g.copy value)

/-- Lowers the address of an element. -/
def elementAddress (g : Lowerer) (e : Cil.Expr) : Lower Node := do
  let place ← g.elementPlace e e.arguments.length
  return ⟨.elementReference place.element, place.array :: place.indices⟩

/-! ### Addresses -/

/-- The type that is read or written through an address. -/
def referentType (e : Cil.Expr) (addressType : Ty) : Lower Ty :=
  match e.type?.orElse fun _ => addressType.elementType?.orElse fun _ => e.inferred? with
  | some t => return t
  | none => throw (.malformed (.unknownRead e.code))

/-- Lowers a load through an address. -/
def loadIndirect (g : Lowerer) (e : Cil.Expr) : Lower Node := do
  let address ← g.raw (← argument e 0)
  let type ← g.typeOf address
  if type.isPointer then
    return pointerRead address (← referentType e type)
  else
    g.location address

/-- Lowers a store through an address. -/
def storeIndirect (g : Lowerer) (e : Cil.Expr) : Lower Node := do
  let address ← g.raw (← argument e 0)
  let element ← referentType e (← g.typeOf address)
  let value ← g.expecting (← argument e 1) element
  g.storeThrough address (← g.copy value) element

/-- Lowers the reset of a location to the default value. -/
def initObject (g : Lowerer) (e : Cil.Expr) : Lower Node := do
  let type ← typeOperand e
  let address ← g.raw (← argument e 0)
  g.storeThrough address (.defaultOf type) type

/-- Lowers the copy of an object from one address to another. -/
def copyObject (g : Lowerer) (e : Cil.Expr) : Lower Node := do
  let type ← typeOperand e
  let destination ← g.raw (← argument e 0)
  let source ← g.raw (← argument e 1)
  let value ← g.copy (← g.location source)
  g.storeThrough destination value type

/-- The value under a copy. -/
def uncopied (value : Node) : Node :=
  match value.form with
  | .structCopy => firstOperand value
  | _ => value

/-- Lowers the address of a value. What is not a location is put into a temporary first. -/
def addressOf (g : Lowerer) (e : Cil.Expr) : Lower Node := do
  let value := uncopied (← g.raw (← argument e 0))
  if value.isLocation then
    Lower.ofExcept (Node.takeReference value)
  else
    let temporary ← Lower.newTemporary (← g.typeOf value)
    let spill ← g.assign temporary value
    let reference ← Lower.ofExcept (Node.takeReference temporary)
    return .comma [spill, reference]

end Lowerer

end ScriptLowering.Lowering
