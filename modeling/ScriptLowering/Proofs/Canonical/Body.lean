import ScriptLowering.Proofs.Canonical.Declaration

/-!
# Bodies before and after the passes

What formed methods and their declarations come to for the bodies that lowering and the usual
pipeline give.
-/

namespace ScriptLowering

open Script Lowering Canonical

/-! ### Sessions -/

/-- The sessions of runs under given directives, in which methods are lowered, brought to canonical
form or replaced by stubs, in any order. -/
inductive Lowering.Session.Reached (directives : Directives) : Session → Prop where
  | start : Reached directives .start
  | lower {session : Session} (hsession : Reached directives session) {env : Env}
      (henv : env.directives = directives) (body : Cil.MethodBody) :
      Reached directives (Lowering.lower env body session).2
  | pipeline {session : Session} (hsession : Reached directives session) (env : Env)
      (pipeline : Pipeline) (m : Lowered) {answer : Except Error Bool} {w : Work}
      (hrun : (pipeline.run env).run ⟨m, session⟩ = (answer, w)) : Reached directives w.session
  | failure {session : Session} (hsession : Reached directives session) (concern : Concern)
      (lead name : String) (e : Error) :
      Reached directives (recordFailure session concern lead name e)

theorem Lowering.Session.Reached.oneSided {directives : Directives} {session : Session}
    (hderives : directives.properties = []) (h : session.Reached directives) :
    session.members.OneSided := by
  induction h with
  | start => exact fun _ hentry => absurd hentry List.not_mem_nil
  | lower _ henv body ih =>
    have hproperties := fun _ : True => henv ▸ hderives
    exact (lower_spec hproperties body fun _ => ih).2 trivial
  | pipeline _ env pipeline m hrun ih => exact members_pipeline hrun ▸ ih
  | failure _ concern lead name e ih => exact ih

/-! ### Validity -/

theorem valid_of_slots {form : Form} {operands : List Node} (hslots : form.Takes operands.length)
    (hwrapper : form.referenceWrapper? = none) (hassigns : form.assigns = false) :
    Node.Valid ⟨form, operands⟩ where
  slots := hslots
  wrapper w h := by simp [hwrapper] at h
  target h := by simp [hassigns] at h

theorem holdsIn_valid {m : Lowered} (hm : m.Formed True) :
    m.body.HoldsIn (fun _ n => n.Valid) [] :=
  Node.HoldsIn.mono hm.body fun _ _ hn => (hn.sound trivial).valid

/-- Where properties are derived from accessors, all nodes of a lowered body are valid, and so are
all nodes after the usual passes. -/
theorem lowered_bodies_valid {env : Env} (hderives : env.directives.properties = [])
    {session session' : Session} (hsession : session.Reached env.directives)
    {body : Cil.MethodBody} {m : Lowered} (hlower : lower env body session = (.ok m, session')) :
    (∀ n ∈ m.body.selfAndDescendants, n.Valid)
    ∧ ∀ (passEnv : Env) (settings : Settings) (passSession : Session) (changed : Bool) (w : Work),
        ((Pipeline.standard settings).run passEnv).run ⟨m, passSession⟩ = (.ok changed, w) →
        ∀ n ∈ w.method.body.selfAndDescendants, n.Valid := by
  have hm : m.Formed True :=
    (lower_spec (fun _ => hderives) body fun _ => hsession.oneSided hderives).1 m (by rw [hlower])
  refine ⟨(holdsIn_valid hm).forall_descendants fun _ _ h => h, ?_⟩
  intro passEnv settings passSession changed w hrun
  obtain ⟨m₀, hm₀, hw⟩ := standard_declares hm hrun
  rw [hw]
  have hholds : (declareVariables m₀).2.body.HoldsIn (fun _ n => n.Valid) [] :=
    holdsIn_declareVariables hm₀ (holdsIn_valid hm₀)
      (fun _ => valid_of_slots (Nat.zero_le _) rfl rfl) (valid_of_slots (Nat.zero_le _) rfl rfl)
      (fun _ _ => valid_of_slots rfl rfl rfl)
  exact hholds.forall_descendants fun _ _ h => h

theorem loopingMethod_lowers :
    ∃ m session' changed w, lower plainEnv loopingMethod .start = (.ok m, session')
      ∧ ((Pipeline.standard .standard).run plainEnv).run ⟨m, session'⟩ = (.ok changed, w) := by
  have hstub : (lowerMethod plainEnv (.standard .standard) loopingMethod .start).1.isStub
      = false := by
    decide +kernel
  exact exists_lower_of_not_isStub hstub

/-- The nodes of the looping method are valid before and after the usual passes. -/
theorem loopingMethod_valid :
    ∃ m session' changed w, lower plainEnv loopingMethod .start = (.ok m, session')
      ∧ ((Pipeline.standard .standard).run plainEnv).run ⟨m, session'⟩ = (.ok changed, w)
      ∧ (∀ n ∈ m.body.selfAndDescendants, n.Valid)
      ∧ ∀ n ∈ w.method.body.selfAndDescendants, n.Valid := by
  obtain ⟨m, session', changed, w, hlower, hrun⟩ := loopingMethod_lowers
  obtain ⟨hbefore, hafter⟩ := lowered_bodies_valid rfl .start hlower
  exact ⟨m, session', changed, w, hlower, hrun, hbefore, hafter _ _ _ _ _ hrun⟩

/-! ### Nesting -/

/-- A tree in which every jump aims at what is around it, and in which the indices of the loops are
distinct and increase in pre-order. -/
structure Script.Node.WellNested (n : Node) : Prop where
  jumps : n.HoldsIn (fun around m => m.form.Aims around) []
  loops : n.loopIndices.Pairwise (· < ·)

theorem Lowering.Lowered.Formed.wellNested {derived : Prop} {m : Lowered} (hm : m.Formed derived) :
    m.body.WellNested :=
  ⟨Node.HoldsIn.mono hm.body fun _ _ hn => hn.aims, hm.loops⟩

/-- Lowered bodies are well nested, and so are bodies after the usual passes. -/
theorem lowered_bodies_well_nested {env : Env} {session session' : Session}
    {body : Cil.MethodBody} {m : Lowered} (hlower : lower env body session = (.ok m, session')) :
    m.body.WellNested
    ∧ ∀ (passEnv : Env) (settings : Settings) (passSession : Session) (changed : Bool) (w : Work),
        ((Pipeline.standard settings).run passEnv).run ⟨m, passSession⟩ = (.ok changed, w) →
        w.method.body.WellNested := by
  have hm : m.Formed False := (lower_spec False.elim body False.elim).1 m (by rw [hlower])
  refine ⟨hm.wellNested, ?_⟩
  intro passEnv settings passSession changed w hrun
  obtain ⟨m₀, hm₀, hw⟩ := standard_declares hm hrun
  rw [hw]
  constructor
  · exact holdsIn_declareVariables hm₀ hm₀.wellNested.jumps (fun _ => trivial) trivial
      fun _ _ => trivial
  · rw [loopIndices_declareVariables hm₀]
    exact hm₀.loops

/-- The looping method is well nested before and after the usual passes. -/
theorem loopingMethod_well_nested :
    ∃ m session' changed w, lower plainEnv loopingMethod .start = (.ok m, session')
      ∧ ((Pipeline.standard .standard).run plainEnv).run ⟨m, session'⟩ = (.ok changed, w)
      ∧ m.body.WellNested ∧ w.method.body.WellNested := by
  obtain ⟨m, session', changed, w, hlower, hrun⟩ := loopingMethod_lowers
  obtain ⟨hbefore, hafter⟩ := lowered_bodies_well_nested hlower
  exact ⟨m, session', changed, w, hlower, hrun, hbefore, hafter _ _ _ _ _ hrun⟩

end ScriptLowering
