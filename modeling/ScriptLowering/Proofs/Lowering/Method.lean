import ScriptLowering.Proofs.Lowering.Statement

/-!
# Lowered methods are formed

Lowering a method starts in a context without variables, loops and enclosing constructs. So what it
ends with is a tree that is formed over the variables of the method, outside every construct, and
whose loops are numbered in pre-order (`lower_spec`).
-/

namespace ScriptLowering.Lowering

open Script

/-- A method whose body is formed over its variables, and whose variables are not yet declared. -/
structure Lowered.Formed (derived : Prop) (m : Lowered) : Prop where
  scope : m.scope.WellFormed
  body : m.body.IsFormed derived m.scope.allVariables []
  loops : m.body.loopIndices.Pairwise (· < ·)
  block : m.body.form = .block none
  undeclared : m.variablesDeclared = false

theorem Lowered.Formed.body_eq {derived : Prop} {m : Lowered} (hm : m.Formed derived) :
    m.body = ⟨.block none, m.body.operands⟩ := by
  have hblock := hm.block
  rcases hbody : m.body with ⟨form, operands⟩
  rw [hbody] at hblock
  obtain rfl : form = .block none := hblock
  rfl

/-- The state in which lowering a method starts. -/
def State.initial (env : Env) (session : Session) : State where
  context := .start env.settings.autoCast env.settings.maxRecursionDepth
  session := session

theorem exists_run_of_lower {env : Env} {body : Cil.MethodBody} {session session' : Session}
    {result : Except Error Lowered} (h : lower env body session = (result, session')) :
    ∃ s' : State, (lowerBody env body).run (.initial env session)
      = (result, s') ∧ s'.session = session' := by
  rcases hrun : (lowerBody env body).run (.initial env session)
    with ⟨result', s'⟩
  have hlower : lower env body session = (result', s'.session) := by
    rw [State.initial] at hrun
    rw [lower, hrun]
  rw [h] at hlower
  cases hlower
  exact ⟨s', rfl, rfl⟩

variable {derived : Prop} {env : Env}

theorem ensures_lowerBody (hderives : derived → env.directives.properties = [])
    (body : Cil.MethodBody) (session : Session) :
    Ensures derived (lowerBody env body) (.initial env session)
      (fun _ m => m.Formed derived) := by
  have hg := reliable_ofMethod hderives body.method
  have hresolve : ∀ v ∈ declaredVariables body, ∀ s, Ensures derived
      ((Lowerer.ofMethod env body.method).resolve v) s fun _ _ => True :=
    fun v _ s => Ensures.resolve.mono fun _ _ _ _ => trivial
  refine (hg.closed.each (fun _ _ _ _ h => h) hresolve).bind fun s₁ _ h₁ _ => ?_
  refine hg.statements.bind fun s₂ statements h₂ hstatements => ?_
  refine .reading _ rfl (.pure ?_)
  have hblock := hstatements.block
  have haround : s₁.context.around = [] := h₁.around_eq
  refine ⟨(h₁.trans h₂).scope.wellFormed Scope.wellFormed_empty, ?_, ?_, rfl, rfl⟩
  · have hformed := hblock.formed _ List.mem_cons_self
    rw [haround] at hformed
    exact hformed
  · have hloops := hblock.loops.increasing
    rw [List.flatMap_singleton] at hloops
    exact hloops

theorem lower_spec (hderives : derived → env.directives.properties = []) (body : Cil.MethodBody)
    {session : Session} (hsession : derived → session.members.OneSided) :
    (∀ m, (lower env body session).1 = .ok m → m.Formed derived)
      ∧ (derived → (lower env body session).2.members.OneSided) := by
  rcases hlower : lower env body session with ⟨result, session'⟩
  obtain ⟨s', hrun, rfl⟩ := exists_run_of_lower hlower
  obtain ⟨⟨hsane, -⟩, hend⟩ := (ensures_lowerBody hderives body session).of_run hsession hrun
  refine ⟨?_, hsane⟩
  rcases hend with ⟨m, rfl, hm⟩ | ⟨e, rfl, -⟩
  · rintro _ ⟨⟩
    exact hm
  · simp

end ScriptLowering.Lowering
