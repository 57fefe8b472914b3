import ScriptLowering.Lowering.Storage

/-!
# Casts between references and boxing

A cast of an absent value is the absent value of the target type. Boxed values have the same
representation as the values themselves, so that boxing only copies.
-/

namespace ScriptLowering.Lowering

open Script

/-- Whether a node is an absent value under casts. -/
def isNullUnderCasts : Node → Bool
  | ⟨.cast _ _, operand :: _⟩ => isNullUnderCasts operand
  | ⟨.asCast _, operand :: _⟩ => isNullUnderCasts operand
  | ⟨.changeType _, operand :: _⟩ => isNullUnderCasts operand
  | n => n.isNullLiteral

/-- A reference to values of a type. -/
def referenceTo (t : Ty) : Ty :=
  if t.isByRef then t else .byRef t

namespace Lowerer

/-- Lowers a cast that fails on values of other types, or tries and yields an absent value. -/
def typeCast (g : Lowerer) (e : Cil.Expr) (tries : Bool) : Lower Node := do
  let type ← typeOperand e
  let value ← g.raw (← argument e 0)
  if isNullUnderCasts value && (!type.isValueType || type.isNullable) then
    return .nullOf type
  else
    return if tries then ⟨.asCast type, [value]⟩ else .cast value type false

/-- Lowers the boxing of a value. -/
def box (g : Lowerer) (e : Cil.Expr) : Lower Node := do
  let type ← typeOperand e
  let value ← g.copy (← g.expecting (← argument e 0) type)
  return .changeType value g.core.object

/-- Lowers the address of a boxed value. -/
def unbox (g : Lowerer) (e : Cil.Expr) : Lower Node := do
  let type ← typeOperand e
  let value ← g.expression (← argument e 0)
  return .changeType value (referenceTo type)

end Lowerer

end ScriptLowering.Lowering
