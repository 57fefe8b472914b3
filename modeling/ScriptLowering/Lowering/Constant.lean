import ScriptLowering.Lowering.Coercion

/-!
# Constants and instructions without a rule
-/

namespace ScriptLowering.Lowering

open Script

/-- The type of an absent value: the inferred one, if it can be absent. -/
def nullType (c : Core) (inferred? : Option Ty) : Ty :=
  match inferred? with
  | some t => if !t.isValueType || t.isNullable then t else c.object
  | none => c.object

/-- The constant of a load instruction, if the operand fits the instruction. -/
def constant? (c : Core) (e : Cil.Expr) : Option Literal :=
  match e.code, e.operand with
  | .ldcI4, .int32 value =>
    let plain := Literal.ofKind c .i4 (Int64.ofInt value.toInt)
    some ((e.inferred?.bind plain.retype?).getD plain)
  | .ldcI8, .int64 value => some (.ofKind c .i8 value)
  | .ldcR4, .float32 value => some (.float (.ofSingle value) (c.primitive .r4))
  | .ldcR8, .float64 value => some (.float value (c.primitive .r8))
  | .ldcDecimal, .decimal text => some (.decimal text)
  | .ldstr, .string text => some (.string text)
  | .ldnull, _ => some (.null (nullType c e.inferred?))
  | .defaultValue, .type t => some (.defaultOf t)
  | .ldtoken, .type t => some (.typeHandle t)
  | .ldtoken, .method m => some (.methodHandle m)
  | .ldtoken, .field f => some (.fieldHandle f)
  | _, _ => none

namespace Lowerer

/-- Lowers a constant. -/
def constant (g : Lowerer) (e : Cil.Expr) : Lower Node :=
  match constant? g.core e with
  | some l => return .literal l
  | none => throw (.malformed (.operandNotTaken e.code e.operand))

/-- Lowers the size of a type: a constant when it is known, else a call of the runtime. -/
def sizeOf (g : Lowerer) (e : Cil.Expr) : Lower Node := do
  let type ← typeOperand e
  if type.size > 0 then
    return .integer g.core .i4 (Int64.ofNat type.size)
  else
    return .intrinsic "SizeOf" g.core.int32 [.typeIdentifier type]

/-- Lowers the arguments of an instruction that has no rule, and records the loss. -/
def unsupported (g : Lowerer) (e : Cil.Expr) : Lower Node := do
  let arguments ← Lower.each g.expression e.arguments
  g.warn e .instruction ("No translation for " ++ e.code.name)
  return .unsupported e.code.name arguments

end Lowerer

end ScriptLowering.Lowering
