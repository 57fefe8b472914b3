import ScriptLowering.Lowering.Monad
import ScriptLowering.Proofs.Computation

/-!
# Runs of single steps

What single steps of lowering do to a state, for proofs that follow a run.
-/

namespace ScriptLowering.Lowering

open Script

theorem run_thenRestore {α : Type} {x : Lower α} {restore : Context → Context} (s : State) :
    (Lower.thenRestore x restore).run s
      = ((x.run s : Except Error α × State).1,
        { (x.run s : Except Error α × State).2 with
          context := restore (x.run s : Except Error α × State).2.context }) :=
  rfl

theorem run_newTemporary (type : Ty) (s : State) :
    (Lower.newTemporary type).run s
      = (.ok (.ofVariable (s.context.table.newTemporary type).1),
        { s with context := { s.context with table := (s.context.table.newTemporary type).2 } }) :=
  rfl

theorem run_typeOf (g : Lowerer) (n : Node) (s : State) :
    (g.typeOf n).run s
      = (.ok (n.computedType g.core s.context.scope.retyping), s) :=
  rfl

/-- An argument is read off the expression. -/
theorem run_argument {e : Cil.Expr} {index : Nat} {a : Cil.Expr} {s s' : State}
    (h : (Lowerer.argument e index).run s = (.ok a, s')) :
    e.arguments[index]? = some a ∧ s' = s := by
  unfold Lowerer.argument at h
  split at h
  · next b hb =>
    cases h
    exact ⟨hb, rfl⟩
  · cases h

/-- An argument that is there is answered. -/
theorem run_argument_of_getElem? {e : Cil.Expr} {index : Nat} {a : Cil.Expr}
    (h : e.arguments[index]? = some a) (s : State) :
    (Lowerer.argument e index).run s = (.ok a, s) := by
  rw [Lowerer.argument, h]
  rfl

end ScriptLowering.Lowering
