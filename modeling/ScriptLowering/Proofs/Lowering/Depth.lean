import ScriptLowering.Proofs.Canonical.Declaration
import ScriptLowering.Proofs.Lowering.AbidingMethod

/-!
# Depth and other choices of a context

While an expression or a statement is lowered, the depth, the choices on casts and the enclosing
constructs of the context change, and afterwards they are as before, also when lowering fails
(`Lower.Restores`). So no statement leaves less depth to the statements after it or inside of it,
and a method is not too deep unless one of its expressions is higher than the depth that is allowed
(`lowering_restores_context`).
-/

namespace ScriptLowering

open Script Lowering

/-- A context with the depth, the choices on casts and the enclosing constructs of another one. -/
structure Lowering.Context.Restored (c c' : Context) : Prop where
  depth : c'.depth = c.depth
  autoCast : c'.autoCast = c.autoCast
  targets : c'.targets = c.targets

/-- A computation that restores the context from every state, whether it answers or fails. -/
def Lowering.Lower.Restores {α : Type} (x : Lower α) : Prop :=
  ∀ s : State, s.context.Restored (x.run s : Except Error α × State).2.context

theorem Lowering.Ensures.restores {α : Type} {x : Lower α} {post : State → State → α → Prop}
    (h : ∀ s, Ensures False x s (post s)) : Lower.Restores x := by
  intro s
  have hframe : ∀ s' : State, s.Advances s' → s.context.Restored s'.context := by
    intro s' hs'
    rw [hs'.frame]
    exact ⟨rfl, rfl, rfl⟩
  exact hframe _ ((h s).of_run False.elim rfl).1.2

/-- Lowering an expression, with or without casts and at any level, or a statement restores the
context. So a method in which no expression is higher than the depth that is allowed does not fail
for its depth. -/
theorem lowering_restores_context (env : Env) (method : Method) :
    (∀ levels e, Lower.Restores (lowerUpTo env method levels e))
    ∧ (∀ e, Lower.Restores ((Lowerer.ofMethod env method).expression e))
    ∧ (∀ e, Lower.Restores ((Lowerer.ofMethod env method).uncast e))
    ∧ (∀ stmt, Lower.Restores ((Lowerer.ofMethod env method).item stmt))
    ∧ ∀ (body : Cil.MethodBody) (session : Session),
        (∀ e, .expression e ∈ Cil.Stmt.partsList body.statements →
          e.height ≤ env.settings.maxRecursionDepth) →
        ∀ limit, (lower env body session).1 ≠ .error (.recursionLimit limit) := by
  have hg : (Lowerer.ofMethod env method).Reliable False := reliable_ofMethod False.elim method
  refine ⟨fun levels e => ?_, fun e => ?_, fun e => ?_, fun stmt => ?_, ?_⟩
  · exact Ensures.restores fun s => ensures_lowerUpTo False.elim method levels e s
  · exact Ensures.restores fun s => hg.expression
  · exact Ensures.restores fun s => hg.uncast
  · exact Ensures.restores fun s => hg.item stmt s
  · intro body session hheights limit hlimit
    have hspared : (Error.recursionLimit limit).exceedsDepth = false :=
      lower_spares hheights hlimit
    cases hspared

/-- A plain run with an expression depth of its own. -/
def plainEnvOfDepth (depth : Nat) : Env :=
  ⟨.ofCore .standard, .empty, { Settings.standard with maxRecursionDepth := depth }⟩

/-- The looping method nests a jump in a case of a switch in a loop, and its expressions have two
levels at most. Depth two is enough for it, and depth one is not. -/
theorem loopingMethod_depth :
    (∀ e, .expression e ∈ Cil.Stmt.partsList loopingMethod.statements → e.height ≤ 2)
    ∧ (∀ limit, (lower (plainEnvOfDepth 2) loopingMethod .start).1
        ≠ .error (.recursionLimit limit))
    ∧ (lower (plainEnvOfDepth 1) loopingMethod .start).1 = .error (.recursionLimit 1) := by
  have hheights : ∀ e, .expression e ∈ Cil.Stmt.partsList loopingMethod.statements →
      e.height ≤ 2 := by
    intro e he
    have hall : ((Cil.Stmt.partsList loopingMethod.statements).filterMap
        Cil.Part.expression?).all (·.height ≤ 2) = true := by
      decide +kernel
    have hmem : e ∈ (Cil.Stmt.partsList loopingMethod.statements).filterMap
        Cil.Part.expression? :=
      List.mem_filterMap.mpr ⟨_, he, rfl⟩
    exact of_decide_eq_true (List.all_eq_true.mp hall e hmem)
  refine ⟨hheights, ?_, rfl⟩
  exact (lowering_restores_context (plainEnvOfDepth 2) loopingMethod.method).2.2.2.2
    loopingMethod .start hheights

end ScriptLowering
