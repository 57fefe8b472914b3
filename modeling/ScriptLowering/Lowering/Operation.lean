import ScriptLowering.Lowering.Conversion

/-!
# Arithmetic, logic and choice

Operands of pointer or native width keep their representation and follow the rules of pointers.
Other integer operations get the type of the wider operand where the annotations are too narrow, and
products of narrow integers are exact.
-/

namespace ScriptLowering.Lowering

open Script

/-- The operator of an arithmetic instruction. Checks for overflow are not kept. -/
def arithmeticOperator? : Cil.Opcode → Option BinaryOp
  | .add | .addOvf | .addOvfUn => some .add
  | .sub | .subOvf | .subOvfUn => some .sub
  | .mul | .mulOvf | .mulOvfUn => some .mul
  | .div | .divUn => some .div
  | .rem | .remUn => some .rem
  | .and => some .bitwiseAnd
  | .or => some .bitwiseOr
  | .xor => some .xor
  | .shl => some .shl
  | .shr => some .shr
  | .shrUn => some .shrUnsigned
  | _ => none

/-- Whether the annotations of an expression speak of a pointer or native integer. -/
def hasPointerHint (e : Cil.Expr) : Bool :=
  e.inferred?.any Ty.isPointerLike || e.expected?.any Ty.isPointerLike

/-- The result type of an integer operation. When both operands are integers and no annotation is as
wide as the wider of them, it is that operand's type; of two equally wide operands the left
counts. -/
def promotedType (annotated : Ty) (expected? inferred? : Option Ty) (left right : Ty) : Ty :=
  if !left.isIntegral || !right.isIntegral then
    annotated
  else
    let width := max ((expected?.map Ty.size).getD 0) ((inferred?.map Ty.size).getD 0)
    let wider := if left.size ≥ right.size then left else right
    if width < wider.size then wider else annotated

/-- Whether a type is an integer of at most 32 bits. -/
def isNarrowInteger (t : Ty) : Bool :=
  t.isIntegral && t.size ≤ 4

/-- The unsigned divisions. -/
def isUnsignedDivision : Cil.Opcode → Bool
  | .divUn | .remUn => true
  | _ => false

/-- The result type of an unsigned division: the unsigned integer of the width of the type. -/
def unsignedResult (c : Core) (result : Ty) : Ty :=
  match result.numericKind? with
  | some kind =>
    if kind.isIntegral then ((kind.toUnsigned?).map c.primitive).getD result else result
  | none => result

/-- A pointer moved by a number of bytes. -/
def pointerAdd (pointer delta : Node) (type : Ty) : Node :=
  ⟨.pointerAdd type, [pointer, delta]⟩

/-- What an operation on pointers or native integers amounts to. -/
inductive PointerRule where
  | move (pointer delta : Node) (type : Ty)
  | moveBack (pointer delta : Node) (type deltaType : Ty)
  | distance
  /-- Native integers keep their width. -/
  | native
  | unknown

/-- The rule for an operator and operands of which at least one is of pointer or native width. -/
def pointerRule (op : BinaryOp) (left right : Node) (leftType rightType : Ty) : PointerRule :=
  match leftType.isPointer, rightType.isPointer with
  | true, false =>
    match op with
    | .add => .move left right leftType
    | .sub => .moveBack left right leftType rightType
    | _ => .unknown
  | false, true =>
    match op with
    | .add => .move right left rightType
    | _ => .unknown
  | true, true =>
    match op with
    | .sub => .distance
    | _ => .unknown
  | false, false => .native

namespace Lowerer

/-- Lowers an operation on pointers or native integers. -/
def pointerOperation (g : Lowerer) (e : Cil.Expr) (op : BinaryOp) (left right : Node)
    (leftType rightType : Ty) : Lower Node := do
  match pointerRule op left right leftType rightType with
  | .move pointer delta type => return pointerAdd pointer delta type
  | .moveBack pointer delta type deltaType =>
    return pointerAdd pointer (.unary .negate delta deltaType) type
  | .distance => return ⟨.pointerDelta, [left, right]⟩
  | .native =>
    if isUnsignedDivision e.code then
      return .binary op (← g.unsigned left) (← g.unsigned right) (g.core.primitive .u)
    else
      return .binary op left right (if leftType.isPointerLike then leftType else rightType)
  | .unknown =>
    g.warn e .instruction ("No pointer arithmetic rule for '" ++ op.symbol ++ "'")
    return .unsupported e.code.name [left, right]

/-- Lowers an operation on numbers. -/
def numberOperation (g : Lowerer) (e : Cil.Expr) (op : BinaryOp) (left right : Node)
    (leftType rightType : Ty) : Lower Node := do
  let annotated := (e.inferred?.orElse fun _ => e.expected?).getD leftType
  let promoted := promotedType annotated e.expected? e.inferred? leftType rightType
  let isUnsigned := isUnsignedDivision e.code
  let left ← if isUnsigned then g.unsigned left else pure left
  let right ← if isUnsigned then g.unsigned right else pure right
  let result := if isUnsigned then unsignedResult g.core promoted else promoted
  if op == .mul && isNarrowInteger (← g.typeOf left) && isNarrowInteger (← g.typeOf right)
      && isNarrowInteger result then
    return ⟨.exactMultiply result.isSigned, [left, right]⟩
  else
    return .binary op left right result

/-- Lowers a binary operation. Operands of which one may be a pointer are not cast. -/
def binaryOperation (g : Lowerer) (e : Cil.Expr) (op : BinaryOp) : Lower Node := do
  let leftExpr ← argument e 0
  let rightExpr ← argument e 1
  let lower := if hasPointerHint leftExpr || hasPointerHint rightExpr then g.raw else g.expression
  let left ← lower leftExpr
  let right ← lower rightExpr
  let leftType ← g.typeOf left
  let rightType ← g.typeOf right
  if leftType.isPointerLike || rightType.isPointerLike then
    g.pointerOperation e op left right leftType rightType
  else
    g.numberOperation e op left right leftType rightType

/-- Lowers a unary operation. -/
def unaryOperation (g : Lowerer) (e : Cil.Expr) (op : UnaryOp) : Lower Node := do
  let operand ← g.expression (← argument e 0)
  return .unary op operand (e.inferred?.getD (← g.typeOf operand))

/-- Lowers a negation. -/
def negation (g : Lowerer) (e : Cil.Expr) : Lower Node := do
  let operand ← g.condition (← argument e 0)
  return .logicalNot g.core operand

/-- Lowers a conjunction or disjunction. -/
def connective (g : Lowerer) (e : Cil.Expr) (op : BinaryOp) : Lower Node := do
  let left ← g.condition (← argument e 0)
  let right ← g.condition (← argument e 1)
  return .binary op left right g.core.boolean

/-- Lowers a choice between two values. -/
def choice (g : Lowerer) (e : Cil.Expr) : Lower Node := do
  let condition ← g.condition (← argument e 0)
  let first ← g.expression (← argument e 1)
  let result := (e.inferred?.orElse fun _ => e.expected?).getD (← g.typeOf first)
  let whenTrue ← g.coerce first result
  let whenFalse ← g.expecting (← argument e 2) result
  return .ternary condition whenTrue whenFalse result

end Lowerer

end ScriptLowering.Lowering
