import ScriptLowering.Lowering.Operation
import ScriptLowering.Lowering.Storage

/-!
# Updates in place

A compound assignment reads its target, applies an operator and writes the target; an increment
yields the old value. The target is evaluated once: indices of a multi-dimensional element move into
temporaries.
-/

namespace ScriptLowering.Lowering

open Script

/-- The shifts, whose right operand keeps its own type. -/
def isShift : BinaryOp → Bool
  | .shlAssign | .shrAssign | .shrUnsignedAssign => true
  | _ => false

/-- The amount of an increment. -/
def incrementDelta? : Cil.Operand → Option Int64
  | .int32 delta => some (Int64.ofInt delta.toInt)
  | .int64 delta => some delta
  | _ => none

/-- The kind of an increment's amount: that of the target if it is an integer, else 32 bits. -/
def deltaKind (t : Ty) : Primitive :=
  match t.numericKind? with
  | some kind => if kind.isIntegral then kind else .i4
  | none => .i4

namespace Lowerer

/-- Lowers a compound assignment, whose argument is the operation on the target and a value. -/
def compoundAssignment (g : Lowerer) (e : Cil.Expr) : Lower Node := do
  let operation ← argument e 0
  match (arithmeticOperator? operation.code).bind BinaryOp.toCompound? with
  | none => throw (.compoundAssignment (.noCompoundForm operation.code))
  | some op =>
    let load ← argument operation 0
    if !load.code.isLoad then
      throw (.compoundAssignment (.targetNotRead operation.code load.code))
    else
      let (prelude, target) ← g.hoistIndices (← g.raw load)
      let type ← g.typeOf target
      let valueExpr ← argument operation 1
      let value ← if isShift op then g.expression valueExpr else g.expecting valueExpr type
      let assignment ← g.compoundAssign op target value
      return afterPrelude prelude assignment

/-- An increment by some amount: the old value is kept in a temporary. -/
def incrementBy (g : Lowerer) (target : Node) (type : Ty) (delta : Int64) : Lower Node := do
  let old ← Lower.newTemporary type
  let keep ← g.assign old target
  let update ← g.compoundAssign .addAssign target (.integer g.core (deltaKind type) delta)
  return .comma [keep, update, old]

/-- Lowers an increment of what an address leads to. -/
def postIncrement (g : Lowerer) (e : Cil.Expr) : Lower Node :=
  match incrementDelta? e.operand with
  | none => throw (.malformed (.deltaRequired e.code))
  | some delta => do
    let target ← g.receiver (← argument e 0)
    if !target.isLocation then
      throw (.invalidTarget target)
    else
      let (prelude, target) ← g.hoistIndices target
      let type ← g.typeOf target
      let increment ←
        if delta = 1 then pure (.unary .postIncrement target type)
        else if delta = -1 then pure (.unary .postDecrement target type)
        else g.incrementBy target type delta
      return afterPrelude prelude increment

end Lowerer

end ScriptLowering.Lowering
