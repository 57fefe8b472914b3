import ScriptLowering.Proofs.Lowering.Invocation
import ScriptLowering.Proofs.Lowering.Operation

/-!
# Every instruction yields a value

The rule of every instruction yields a value by every criterion that is closed.
-/

namespace ScriptLowering.Lowering

open Script

/-- The operators of a rule assign nothing. -/
def Rule.AssignsNothing : Rule → Prop
  | binary op => op.isAssignment = false
  | connective op => op.isAssignment = false
  | comparison op _ => op.isAssignment = false
  | unary op => op.isMutating = false
  | _ => True

theorem isAssignment_of_comparisonOperator? {code : Cil.Opcode} {op : BinaryOp} {unsigned : Bool}
    (h : comparisonOperator? code = some (op, unsigned)) : op.isAssignment = false := by
  unfold comparisonOperator? at h
  split at h <;> cases h <;> rfl

theorem plainRule_assignsNothing (code : Cil.Opcode) : (plainRule code).AssignsNothing := by
  cases code <;> first | exact trivial | rfl

theorem ruleOf_assignsNothing (code : Cil.Opcode) : (ruleOf code).AssignsNothing := by
  unfold ruleOf
  split
  · next harithmetic => exact isAssignment_of_arithmeticOperator? harithmetic
  · next hcomparison => exact isAssignment_of_comparisonOperator? hcomparison
  · exact trivial
  · exact plainRule_assignsNothing code

/-- Only one opcode is an increment. -/
theorem code_of_ruleOf_postIncrement {code : Cil.Opcode} (h : ruleOf code = .postIncrement) :
    code = .postIncrement := by
  cases code <;> first | rfl | cases h

namespace Criterion.Closed

variable {g : Lowerer} {C : Criterion g} (hC : C.Closed) {s : State} {e : Cil.Expr}
include hC

theorem apply (he : C.Applies e) :
    ∀ {rule : Rule}, rule.AssignsNothing → (rule = .postIncrement → e.code = .postIncrement) →
      C.Gives (g.apply e rule) s
  | .nothing, _, _ => hC.pure (hC.leaf rfl rfl (by simp))
  | .constant, _, _ => hC.constant he
  | .sizeOf, _, _ => hC.sizeOf he
  | .loadLocal, _, _ => hC.loadLocal he
  | .storeLocal, _, _ => hC.storeLocal he
  | .localAddress, _, _ => hC.localAddress he
  | .loadField, _, _ => hC.loadField he
  | .storeField, _, _ => hC.storeField he
  | .fieldAddress, _, _ => hC.fieldAddress he
  | .newArray, _, _ => hC.newArray he
  | .initArray, _, _ => hC.initArray he
  | .arrayLength, _, _ => hC.arrayLength he
  | .loadElement, _, _ => hC.loadElement he
  | .storeElement, _, _ => hC.storeElement he
  | .elementAddress, _, _ => hC.elementAddress he
  | .loadIndirect, _, _ => hC.loadIndirect he
  | .storeIndirect, _, _ => hC.storeIndirect he
  | .initObject, _, _ => hC.initObject he
  | .copyObject, _, _ => hC.copyObject he
  | .addressOf, _, _ => hC.addressOf he
  | .binary _, hop, _ => hC.binaryOperation he hop
  | .unary _, hop, _ => hC.unaryOperation he hop
  | .negation, _, _ => hC.negation he
  | .connective _, hop, _ => hC.connective he hop
  | .choice, _, _ => hC.choice he
  | .compoundAssignment, _, _ => hC.compoundAssignment he
  | .postIncrement, _, hcode => hC.postIncrement he (hcode rfl)
  | .comparison _ _, hop, _ => hC.comparison he hop
  | .conversion _ _, _, _ => hC.conversion he
  | .newObject, _, _ => hC.create he
  | .call, _, _ => hC.call he
  | .methodPointer, _, _ => hC.methodPointer he
  | .virtualMethodPointer, _, _ => hC.virtualMethodPointer he
  | .typeCast _, _, _ => hC.typeCast he
  | .box, _, _ => hC.box he
  | .unbox, _, _ => hC.unbox he
  | .nullableWrap, _, _ => hC.nullableWrap he
  | .nullableValue, _, _ => hC.nullableValue he
  | .liftedOperation, _, _ => hC.liftedOperation he
  | .goto, _, _ => hC.goto
  | .breakOut, _, _ => hC.leave
  | .continueLoop, _, _ => hC.advance
  | .returnValue, _, _ => hC.returnValue he
  | .throwValue, _, _ => hC.throwValue he
  | .rethrow, _, _ => hC.pure (hC.leaf rfl rfl (by simp))
  | .argument, _, _ => hC.argument he fun _ ha => hC.expression ha
  | .unsupported, _, _ => hC.lost he

theorem apply_ruleOf (he : C.Applies e) : C.Gives (g.apply e (ruleOf e.code)) s :=
  hC.apply he (ruleOf_assignsNothing e.code) code_of_ruleOf_postIncrement

end Criterion.Closed

end ScriptLowering.Lowering
