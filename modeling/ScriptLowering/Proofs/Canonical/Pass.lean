import ScriptLowering.Canonical.Pass
import ScriptLowering.Proofs.Canonical.CastExpansion
import ScriptLowering.Proofs.Canonical.PropertyUpdate
import ScriptLowering.Proofs.Lowering.Method

/-!
# Passes keep methods formed

The passes of a round are reducers, and each of them keeps a method formed. What every pass keeps,
rounds of passes keep (`runOnce_keeps`, `rounds_keep`), whether they end or fail. So the usual
pipeline ends with the declaration of the variables of a method that has what the other passes keep
(`standard_ends`), such as a formed method (`standard_declares`).
-/

namespace ScriptLowering.Canonical

open Script Lowering

variable {derived : Prop} {env : Env}

/-! ### Single passes -/

theorem isStatement_of_replaceCall? {h : Hierarchy} {r : Retyping} {n m : Node}
    (hreplace : replaceCall? h r n = some m) : n.form.isStatement = false := by
  unfold replaceCall? at hreplace
  split at hreplace
  · next hform => rw [hform]; rfl
  · next hform => rw [hform]; rfl
  · next hform => rw [hform]; rfl
  · cases hreplace

theorem intrinsicForms_preserves {h : Hierarchy} {r : Retyping} (scope : Scope) :
    (Pass.intrinsicForms h r).Preserves derived fun _ => scope := by
  intro n s around hn
  refine ⟨.refl _, fun m hm => ?_⟩
  have hreplace : replaceCall? h r n = some m := Except.ok.inj hm
  have hexpression : n.IsExpression derived scope.allVariables around :=
    ⟨isStatement_of_replaceCall? hreplace, hn⟩
  obtain ⟨hm, hlocation⟩ := replaceCall?_spec hexpression hreplace
  exact ⟨hm.expression.2, hm.standsFor hexpression hlocation⟩

theorem formed_of_kept {σ : Type} (scopeOf : σ → Scope) {m : Lowered} {s s' : σ} {body : Node}
    (hm : m.Formed derived) (hscope : scopeOf s = m.scope)
    (hkept : Reducer.Kept derived scopeOf [] m.body s body s') :
    Lowered.Formed derived { m with body, scope := scopeOf s' } where
  scope := hkept.grows.wellFormed (hscope ▸ hm.scope)
  body := hkept.formed
  loops := hkept.stands.loops ▸ hm.loops
  block := (hkept.stands.form (by rw [hm.block]; rfl)).trans hm.block
  undeclared := hm.undeclared

variable {w : Work} {p : Pass}

theorem Pass.formed_step (hp : p ≠ .declarations) (hw : w.method.Formed derived) :
    (p.step env w).2.method.Formed derived := by
  cases p with
  | intrinsics =>
    exact formed_of_kept (fun _ => w.method.scope) hw rfl
      (Reducer.run_kept (intrinsicForms_preserves _) hw.body)
  | propertyUpdates =>
    exact formed_of_kept id hw rfl
      (Reducer.run_kept (propertyUpdate_preserves env.core) hw.body)
  | castExpansion =>
    exact formed_of_kept (fun _ => w.method.scope) hw rfl
      (Reducer.run_kept (castExpansion_preserves _) hw.body)
  | declarations => exact absurd rfl hp

theorem Pass.members_step (p : Pass) (w : Work) :
    (p.step env w).2.session.members = w.session.members := by
  cases p <;> rfl

/-! ### Rounds -/

theorem leads_passRun {I : Work → Prop} (h : I (p.step env w).2) :
    Leads (p.run env) w (fun _ => I) I := by
  have hrun : (p.run env).run w = p.step env w := rfl
  unfold Leads
  rw [hrun]
  split <;> rename_i heq <;> rw [heq] at h <;> exact h

section

variable {I : Work → Prop} (hlog : ∀ w message, I w →
  I { w with session := w.session.write .debug message })
include hlog

variable {failed : Work → Prop}

theorem runOnce_cons {rest : List Pass} {done : Work → Prop}
    (hp : Leads (p.run env) w (fun _ => I) failed) (hskip : p.appliesTo w.method = false → I w)
    (hrest : ∀ {w : Work}, I w → Leads (runOnce env rest) w (fun _ => done) failed) :
    Leads (runOnce env (p :: rest)) w (fun _ => done) failed := by
  have hend : ∀ {w : Work} {changed : Bool}, I w → Leads
      (do let others ← runOnce env rest; return changed || others) w (fun _ => done) failed :=
    fun hw => .bind ((hrest hw).mono (fun _ _ h => .pure h) fun _ h => h)
  unfold runOnce
  refine .bind (x := get) ?_
  change Leads (if p.appliesTo w.method then _ else _) w _ _
  split
  · refine .bind (hp.mono (fun changed w' hw' => ?_) fun _ h => h)
    split
    · exact .bind (hlog w' _ hw' |> hend)
    · exact hend hw'
  · next happlies => exact hrest (hskip (Bool.eq_false_iff.mpr happlies))

theorem runOnce_keeps : ∀ {passes : List Pass},
    (∀ p ∈ passes, ∀ w, I w → I (p.step env w).2) → ∀ {w : Work}, I w →
      Leads (runOnce env passes) w (fun _ => I) I
  | [], _, _, hw => .pure hw
  | _ :: _, hstep, w, hw => by
    obtain ⟨hp, hrest⟩ := List.forall_mem_cons.mp hstep
    exact runOnce_cons hlog (leads_passRun (hp w hw)) (fun _ => hw) (runOnce_keeps hrest)

theorem rounds_succ {passes : List Pass} {left done : Nat}
    (hround : Leads (runOnce env passes) w (fun _ => I) failed)
    (hlater : ∀ {w : Work}, I w →
      Leads (Pipeline.rounds env passes left (done + 1)) w (fun _ => I) failed) :
    Leads (Pipeline.rounds env passes (left + 1) done) w (fun _ => I) failed := by
  unfold Pipeline.rounds
  refine .bind (hround.mono (fun changed w' hw' => ?_) fun _ h => h)
  split
  · refine .bind (x := get) ?_
    change Leads (note _ >>= _) w' _ _
    refine .bind (x := note _) (.bind ?_)
    exact Leads.mono (hlater (hlog w' _ hw')) (fun _ _ h => .pure h) fun _ h => h
  · exact .pure hw'

theorem rounds_keep {passes : List Pass} (hstep : ∀ p ∈ passes, ∀ w, I w → I (p.step env w).2) :
    ∀ (left done : Nat) {w : Work}, I w →
      Leads (Pipeline.rounds env passes left done) w (fun _ => I) I
  | 0, _, _, hw => .pure hw
  | left + 1, done, _, hw =>
    rounds_succ hlog (runOnce_keeps hlog hstep hw) (rounds_keep hstep left (done + 1))

theorem pipeline_keeps {pipeline : Pipeline} (hstep : ∀ p w, I w → I (Pass.step p env w).2)
    (hw : I w) : Leads (pipeline.run env) w (fun _ => I) I := by
  unfold Pipeline.run
  have hrounds : Leads (Pipeline.rounds env pipeline.passes pipeline.iterations 0) w _ _ :=
    rounds_keep hlog (fun p _ => hstep p) _ _ hw
  refine .bind (hrounds.mono (fun _ w' hw' => ?_) fun _ h => h)
  refine .bind ((runOnce_keeps hlog (fun p _ => hstep p) hw').mono (fun _ _ h => ?_) fun _ h => h)
  exact .pure h

end

variable {w' : Work}

theorem members_pipeline {pipeline : Pipeline} {answer : Except Error Bool}
    (h : (pipeline.run env).run w = (answer, w')) : w'.session.members = w.session.members := by
  have hkeeps : Leads (pipeline.run env) w _ _ :=
    pipeline_keeps (I := fun w' => w'.session.members = w.session.members) (fun _ _ h => h)
      (fun p w' hw' => (Pass.members_step p w').trans hw') rfl
  rcases hkeeps.of_run h with ⟨_, _, h⟩ | ⟨_, h⟩ <;> exact h

theorem leads_declarations (hw : w.method.variablesDeclared = false) :
    Leads (runOnce env [.declarations]) w
      (fun _ w' => w'.method = (declareVariables w.method).2) fun _ => True := by
  unfold runOnce
  refine .bind (x := get) ?_
  change Leads (if Pass.appliesTo .declarations w.method then _ else _) w _ _
  rw [if_pos (by simp [Pass.appliesTo, hw])]
  have hstep : Leads (Pass.run .declarations env) w _ _ :=
    leads_passRun (I := fun w' => w'.method = (declareVariables w.method).2) rfl
  refine .bind (hstep.mono (fun changed w' hw' => ?_) fun _ _ => trivial)
  cases changed <;> exact hw'

theorem standard_ends {P : Lowered → Prop} (hundeclared : ∀ m, P m → m.variablesDeclared = false)
    (hstep : ∀ p, p ≠ Pass.declarations → ∀ w, P w.method → P (p.step env w).2.method)
    {settings : Settings} {changed : Bool} (hw : P w.method)
    (h : ((Pipeline.standard settings).run env).run w = (.ok changed, w')) :
    ∃ m : Lowered, P m ∧ w'.method = (declareVariables m).2 := by
  have hpasses : ∀ p ∈ (Pipeline.standard settings).passes, p ≠ .declarations := by
    simp [Pipeline.standard]
  have hrounds : Leads (Pipeline.rounds env (Pipeline.standard settings).passes
      (Pipeline.standard settings).iterations 0) w _ _ :=
    rounds_keep (I := fun w => P w.method) (fun _ _ h => h)
      (fun p hp => hstep p (hpasses p hp)) _ _ hw
  have hrun : Leads ((Pipeline.standard settings).run env) w
      (fun _ w' => ∃ m : Lowered, P m ∧ w'.method = (declareVariables m).2) fun _ => True := by
    unfold Pipeline.run
    refine .bind (hrounds.mono (fun _ w₁ hw₁ => ?_) fun _ _ => trivial)
    have hdeclares : Leads (runOnce env [.declarations]) w₁ _ _ :=
      leads_declarations (hundeclared _ hw₁)
    refine .bind (hdeclares.mono (fun _ w₂ hw₂ => ?_) fun _ h => h)
    exact .pure ⟨w₁.method, hw₁, hw₂⟩
  rcases hrun.of_run h with ⟨_, _, h⟩ | ⟨⟨_, h⟩, _⟩
  · exact h
  · cases h

theorem standard_declares {settings : Settings} {changed : Bool} (hw : w.method.Formed derived)
    (h : ((Pipeline.standard settings).run env).run w = (.ok changed, w')) :
    ∃ m : Lowered, m.Formed derived ∧ w'.method = (declareVariables m).2 :=
  standard_ends (fun _ hm => hm.undeclared) (fun _ hp _ => Pass.formed_step hp) hw h

end ScriptLowering.Canonical
