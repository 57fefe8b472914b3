import ScriptLowering.Lowering.Conversion
import ScriptLowering.Lowering.Storage

/-!
# Comparisons

Operands are lowered without casts, since a comparison depends on their own representations. A
comparison of a truth value with a constant is the value or its negation, every comparison with an
absent value is a test for absence, pointers compare by their offsets, and unsigned comparisons read
signed integers as unsigned.
-/

namespace ScriptLowering.Lowering

open Script

/-- The integer value of a constant node. -/
def constantValue? (n : Node) : Option Int64 :=
  n.literal?.bind Literal.toInt64?

/-- A truth value that stands in a comparison with a constant, and the constant. -/
def comparedWithConstant? (c : Core) (r : Retyping) (left right : Node) : Option (Node × Int64) :=
  match constantValue? left, constantValue? right with
  | none, some k => if (left.computedType c r).isBoolean then some (left, k) else none
  | some k, none => if (right.computedType c r).isBoolean then some (right, k) else none
  | _, _ => none

/-- The equality or inequality of a truth value and a constant, as the value or its negation. -/
def collapseBoolean? (c : Core) (r : Retyping) (op : BinaryOp) (left right : Node) : Option Node :=
  let collapse (isEquality : Bool) : Option Node :=
    (comparedWithConstant? c r left right).map fun (value, k) =>
      if (k != 0) == isEquality then value else .logicalNot c value
  match op with
  | .equal => collapse true
  | .notEqual => collapse false
  | _ => none

/-- A comparison with an absent value as a test for absence. -/
def absenceTest : BinaryOp → BinaryOp
  | .less | .greater => .notEqual
  | .lessEqual | .greaterEqual => .equal
  | op => op

/-- The type test that a comparison of a tried cast with an absent value is. -/
def typeTest? (op : BinaryOp) (left right : Node) : Option Node :=
  let cast := if right.isNullLiteral then left else right
  match op, cast.form with
  | .equal, .asCast t => some ⟨.typeTest t, [firstOperand cast]⟩
  | .notEqual, .asCast t => some ⟨.typeTest t, [firstOperand cast]⟩
  | _, _ => none

/-- A comparison of which one side is an absent value. -/
def compareWithNull (c : Core) (op : BinaryOp) (left right : Node) : Node :=
  let op := absenceTest op
  match typeTest? op left right with
  | some test => if op == .equal then .logicalNot c test else test
  | none => .binary op left right c.boolean

/-- Whether a type is a signed integer of at most 32 bits. -/
def isNarrowSigned (t : Ty) : Bool :=
  t.isIntegral && t.isSigned && t.size ≤ 4

/-- The order comparisons. -/
def isRelational (op : BinaryOp) : Bool :=
  op != .equal && op != .notEqual

/-- The byte offset of a pointer. -/
def pointerOffset (n : Node) : Node :=
  ⟨.pointerOffset, [n]⟩

/-- A comparison of two present values. -/
def compareValues (c : Core) (r : Retyping) (op : BinaryOp) (unsigned : Bool) (left right : Node) :
    Node :=
  let leftType := left.computedType c r
  let rightType := right.computedType c r
  if leftType.isPointer && rightType.isPointer then
    .binary op (pointerOffset left) (pointerOffset right) c.boolean
  else if unsigned && isRelational op && (isNarrowSigned leftType || isNarrowSigned rightType) then
    .binary op (asUnsigned c r left) (asUnsigned c r right) c.boolean
  else
    .binary op left right c.boolean

/-- The comparison of two values. -/
def compared (c : Core) (r : Retyping) (op : BinaryOp) (unsigned : Bool) (left right : Node) :
    Node :=
  match collapseBoolean? c r op left right with
  | some collapsed => collapsed
  | none =>
    if left.isNullLiteral || right.isNullLiteral then compareWithNull c op left right
    else compareValues c r op unsigned left right

namespace Lowerer

/-- Lowers a comparison. -/
def comparison (g : Lowerer) (e : Cil.Expr) (op : BinaryOp) (unsigned : Bool) : Lower Node := do
  let left ← g.uncast (← argument e 0)
  let right ← g.uncast (← argument e 1)
  return compared g.core (← Lower.context).scope.retyping op unsigned left right

end Lowerer

end ScriptLowering.Lowering
