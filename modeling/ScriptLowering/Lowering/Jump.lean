import ScriptLowering.Lowering.Storage

/-!
# Jumps
-/

namespace ScriptLowering.Lowering

open Script

namespace Lowerer

/-- Lowers a jump to a label. -/
def goto (_ : Lowerer) (e : Cil.Expr) : Lower Node :=
  match e.label? with
  | some label => return ⟨.gotoLabel label, []⟩
  | none => throw (.malformed (.operandRequired e.code .label))

/-- Lowers a jump out of the innermost loop or switch. -/
def breakOut (_ : Lowerer) (e : Cil.Expr) : Lower Node := do
  match (← Lower.context).breakTarget? with
  | some target? => return ⟨.breakOut target?, []⟩
  | none => throw (.malformed (.outsideLoopOrSwitch e.code))

/-- Lowers a jump to the next round of the innermost loop. -/
def continueLoop (_ : Lowerer) (e : Cil.Expr) : Lower Node := do
  match (← Lower.context).continueTarget? with
  | some index => return ⟨.continueLoop (some index), []⟩
  | none => throw (.malformed (.outsideLoop e.code))

/-- Lowers a return. The value is one of the return type. -/
def returnValue (g : Lowerer) (e : Cil.Expr) : Lower Node :=
  match e.arguments with
  | [] => return .returnValue .empty
  | value :: _ => do
    let value ← g.expecting value g.method.returnType
    return .returnValue (← g.copy value)

/-- Lowers a throw. -/
def throwValue (g : Lowerer) (e : Cil.Expr) : Lower Node := do
  let exception ← g.expression (← argument e 0)
  return .throwValue exception

end Lowerer

end ScriptLowering.Lowering
