import ScriptLowering.Proofs.Canonical.Declaration

/-!
# What the passes leave

A node for which a reducer has no replacement stays without one, also after later nodes have been
looked at: the answers that a reducer remembers are kept (`Reducer.Lasting`). So a reduction that
reports no change has left the tree as it was, and no node of it has a replacement
(`Reducer.Lasting.unchanged`); and where no node has one, a reduction reports no change and leaves
the state as well (`run_of_irreducible`).
-/

namespace ScriptLowering

open Script

/-! ### Sizes -/

namespace Script.Node

theorem size_le_sizeList {o : Node} : ∀ {operands : List Node}, o ∈ operands →
    o.size ≤ sizeList operands
  | n :: rest, ho => by
    rw [sizeList]
    rcases List.mem_cons.mp ho with rfl | ho
    · omega
    · have hrest := size_le_sizeList ho
      omega

end Script.Node

namespace Canonical

open Lowering

/-! ### Reductions that change nothing -/

namespace Reducer

variable {σ : Type} {w : Reducer σ} {limit : Nat}

/-- A tree of which no node has a replacement, nor changes the state. -/
def Irreducible (w : Reducer σ) (s : σ) (n : Node) : Prop :=
  ∀ m ∈ n.selfAndDescendants, w.reduct? m s = (.ok none, s)

variable {s : σ}

theorem irreducible_mk {form : Form} {operands : List Node} :
    w.Irreducible s ⟨form, operands⟩
      ↔ w.reduct? ⟨form, operands⟩ s = (.ok none, s) ∧ ∀ o ∈ operands, w.Irreducible s o := by
  simp only [Irreducible, Node.selfAndDescendants_mk, List.forall_mem_cons, List.forall_mem_flatMap]

theorem reduceEach_of_same {f : Node → σ → Progress σ Node} :
    ∀ {operands : List Node}, (∀ o ∈ operands, f o s = ⟨o, s, .settled false⟩) →
      reduceEach f operands s = ⟨operands, s, .settled false⟩
  | [], _ => rfl
  | n :: rest, h => by
    obtain ⟨hn, hrest⟩ := List.forall_mem_cons.mp h
    simp only [reduceEach, hn, reduceEach_of_same hrest, Verdict.after_false]

theorem reduceTree_of_irreducible : ∀ {budget : Nat} {n : Node},
    w.Irreducible s n → n.size ≤ budget →
    w.reduceTree limit budget n s = ⟨n, s, .settled false⟩ := by
  intro budget
  induction budget with
  | zero =>
    rintro ⟨form, operands⟩ _ hsize
    rw [Node.size] at hsize
    omega
  | succ budget ih =>
    rintro ⟨form, operands⟩ hn hsize
    obtain ⟨hnode, hoperands⟩ := irreducible_mk.mp hn
    rw [Node.size] at hsize
    have hroot : w.settle limit false ⟨form, operands⟩ s
        = ⟨⟨form, operands⟩, s, .settled false⟩ := by
      unfold settle
      rw [hnode]
    have hrest : reduceEach (w.reduceTree limit budget) operands s
        = ⟨operands, s, .settled false⟩ := by
      refine reduceEach_of_same fun o ho => ih (hoperands o ho) ?_
      have hle := Node.size_le_sizeList ho
      omega
    rw [reduceTree, hroot]
    simp only [hrest, Verdict.after_false]

theorem run_of_irreducible {n : Node} (h : w.Irreducible s n) :
    w.run limit n s = (.ok false, n, s) := by
  have hlevels : n.size ≤ levels n := by
    unfold levels
    omega
  simp only [run, reduceTree_of_irreducible h hlevels]

/-- A reducer whose refusals last: what it remembers grows from a state to a later one, and a node
without replacement has none in later states, which it leaves as they are. -/
structure Lasting (w : Reducer σ) (later : σ → σ → Prop) : Prop where
  refl : ∀ s, later s s
  trans : ∀ {s s' s''}, later s s' → later s' s'' → later s s''
  grows : ∀ {n s s'}, w.reduct? n s = (.ok none, s') → later s s'
  keeps : ∀ {n s s' s''}, w.reduct? n s = (.ok none, s') → later s' s'' →
    w.reduct? n s'' = (.ok none, s'')

theorem settle_unchanged {left : Nat} {changed : Bool} {n : Node}
    (h : (w.settle left changed n s).verdict = .settled false) :
    changed = false ∧ (w.settle left changed n s).result = n
      ∧ w.reduct? n s = (.ok none, (w.settle left changed n s).state) := by
  fun_induction settle w left changed n s with
  | case1 | case3 | case4 => cases h
  | case2 _ _ _ _ _ hstep => exact ⟨Verdict.settled.inj h, rfl, hstep⟩
  | case5 _ _ _ _ _ _ _ _ _ ih =>
    -- After a replacement the place counts as changed.
    exact absurd (ih h).1 (by decide)

namespace Lasting

variable {later : σ → σ → Prop} (hw : w.Lasting later)
include hw

theorem irreducible {n : Node} {s s' : σ} (h : w.Irreducible s n) (hlater : later s s') :
    w.Irreducible s' n :=
  fun m hm => hw.keeps (h m hm) hlater

theorem reduceEach {f : Node → σ → Progress σ Node}
    (hf : ∀ {n : Node} {s : σ}, (f n s).verdict = .settled false →
      (f n s).result = n ∧ later s (f n s).state ∧ w.Irreducible (f n s).state n) :
    ∀ {operands : List Node} {s : σ}, (Reducer.reduceEach f operands s).verdict = .settled false →
      (Reducer.reduceEach f operands s).result = operands
        ∧ later s (Reducer.reduceEach f operands s).state
        ∧ ∀ o ∈ operands, w.Irreducible (Reducer.reduceEach f operands s).state o
  | [], s, _ => ⟨rfl, hw.refl s, nofun⟩
  | n :: rest, s, h => by
    simp only [Reducer.reduceEach] at h ⊢
    cases hfirst : (f n s).verdict with
    | settled c =>
      rw [hfirst] at h
      obtain ⟨d, hrest, hor⟩ := Verdict.exists_settled_of_after h
      obtain ⟨rfl, rfl⟩ := Bool.or_eq_false_iff.mp hor.symm
      obtain ⟨hresult, hlater, hn⟩ := hf hfirst
      obtain ⟨hresults, hlaters, hothers⟩ := reduceEach hf hrest
      refine ⟨by simp only [hresult, hresults], hw.trans hlater hlaters, ?_⟩
      exact List.forall_mem_cons.mpr ⟨hw.irreducible hn hlaters, hothers⟩
    | failed _ | unfinished => rw [hfirst] at h; cases h

theorem reduceTree : ∀ {budget : Nat} {n : Node} {s : σ},
    (w.reduceTree limit budget n s).verdict = .settled false →
    (w.reduceTree limit budget n s).result = n
      ∧ later s (w.reduceTree limit budget n s).state
      ∧ w.Irreducible (w.reduceTree limit budget n s).state n := by
  intro budget
  induction budget with
  | zero => exact fun h => by cases h
  | succ budget ih =>
    intro n s h
    by_cases hroot : ∃ c, (w.settle limit false n s).verdict = .settled c
    · obtain ⟨c, hc⟩ := hroot
      rw [verdict_reduceTree_of_settled hc] at h
      obtain ⟨d, hoperands, hor⟩ := Verdict.exists_settled_of_after h
      obtain ⟨rfl, rfl⟩ := Bool.or_eq_false_iff.mp hor.symm
      -- The root was refused before its operands were reduced, and refusals last.
      obtain ⟨-, hresult, hnode⟩ := settle_unchanged hc
      obtain ⟨form, operands⟩ := n
      rw [hresult] at hoperands
      obtain ⟨hresults, hlater, hirreducible⟩ :=
        hw.reduceEach (f := w.reduceTree limit budget) ih hoperands
      rw [reduceTree_of_settled hc]
      dsimp only
      rw [hresult, hresults]
      refine ⟨rfl, hw.trans (hw.grows hnode) hlater, ?_⟩
      exact irreducible_mk.mpr ⟨hw.keeps hnode hlater, hirreducible⟩
    · rw [not_exists] at hroot
      rw [reduceTree_of_not_settled hroot] at h
      exact absurd h (hroot false)

theorem unchanged {n n' : Node} {s s' : σ} (h : w.run limit n s = (.ok false, n', s')) :
    n' = n ∧ later s s' ∧ w.Irreducible s' n := by
  simp only [run] at h
  split at h
  · next changed hverdict =>
    cases h
    exact hw.reduceTree hverdict
  · cases h
  · cases h

end Lasting

end Reducer

/-! ### The reducers of the passes -/

theorem lasting_intrinsicForms (h : Hierarchy) (r : Retyping) :
    (Pass.intrinsicForms h r).Lasting Eq where
  refl _ := rfl
  trans := Eq.trans
  grows _ := rfl
  keeps hnone _ := hnone

theorem reduct?_propertyUpdate {c : Core} {n : Node} {scope scope' : Scope}
    (h : (propertyUpdate c).reduct? n scope = (.ok none, scope')) :
    ∀ scope, (propertyUpdate c).reduct? n scope = (.ok none, scope) := by
  intro other
  simp only [propertyUpdate] at h ⊢
  split at h
  · next op type property operands value =>
    split at h
    · split at h <;> cases h
    · rfl
  · rfl

theorem lasting_propertyUpdate (c : Core) : (propertyUpdate c).Lasting Eq where
  refl _ := rfl
  trans := Eq.trans
  grows {n scope scope'} hnone := by
    rw [reduct?_propertyUpdate hnone scope] at hnone
    exact (Prod.mk.inj hnone).2
  keeps hnone _ := reduct?_propertyUpdate hnone _

section

variable {h : Hierarchy} {r : Retyping} {emulateInt64 checked : Bool} {value : Node} {target : Ty}

theorem expandCast?_spec (memo : AssignableMemo) :
    memo.Before (expandCast? h r emulateInt64 value target checked memo).2
      ∧ ∀ memo', (expandCast? h r emulateInt64 value target checked memo).2.Before memo' →
        expandCast? h r emulateInt64 value target checked memo'
          = ((expandCast? h r emulateInt64 value target checked memo).1, memo') := by
  have hsame : memo.Before memo := .refl memo
  simp only [expandCast?]
  split
  · exact ⟨hsame, fun _ _ => rfl⟩
  · split
    · exact ⟨hsame, fun _ _ => rfl⟩
    · split
      · exact ⟨hsame, fun _ _ => rfl⟩
      · split
        · -- Only casts between references ask.
          have hasked : ∀ memo, (expandReference? h value (value.computedType h.core r) target
              memo).2 = (memo.ask h target (value.computedType h.core r)).2 := by
            intro memo
            unfold expandReference?
            simp only
            split
            · rfl
            · split <;> rfl
          rw [hasked]
          refine ⟨(AssignableMemo.ask_spec memo).1, fun memo' hlater => ?_⟩
          simp only [expandReference?, AssignableMemo.ask_later hlater]
          split
          · rfl
          · split <;> rfl
        · exact ⟨hsame, fun _ _ => rfl⟩

end

theorem lasting_castExpansion (h : Hierarchy) (r : Retyping) (emulateInt64 : Bool) :
    (castExpansion h r emulateInt64).Lasting AssignableMemo.Before where
  refl := .refl
  trans := .trans
  grows {n memo memo'} hnone := by
    simp only [castExpansion] at hnone
    split at hnone
    · obtain ⟨-, rfl⟩ := Prod.mk.inj hnone
      exact (expandCast?_spec memo).1
    · cases hnone
      exact .refl memo
  keeps {n memo memo' memo''} hnone hlater := by
    simp only [castExpansion] at hnone ⊢
    split at hnone
    · obtain ⟨hanswer, rfl⟩ := Prod.mk.inj hnone
      simp only [(expandCast?_spec memo).2 memo'' hlater, hanswer]
    · rfl

/-! ### Passes at rest -/

/-- A pass is at rest on a method if it has no replacement for any node of the body. -/
def Pass.Rests (env : Env) (work : Work) : Pass → Prop
  | .intrinsics =>
    (Pass.intrinsicForms env.types work.method.scope.retyping).Irreducible () work.method.body
  | .propertyUpdates => (propertyUpdate env.core).Irreducible work.method.scope work.method.body
  | .castExpansion =>
    (Canonical.castExpansion env.types work.method.scope.retyping
      env.settings.emulateInt64).Irreducible work.session.assignable work.method.body
  | .declarations => work.method.variablesDeclared = true

/-- Work on the same method, with more answers remembered. -/
structure Quiet (work work' : Work) : Prop where
  method : work'.method = work.method
  memo : work.session.assignable.Before work'.session.assignable

variable {env : Env} {work work' : Work} {p : Pass} {passes : List Pass}

theorem Quiet.refl (work : Work) : Quiet work work :=
  ⟨rfl, .refl _⟩

theorem Quiet.trans {work₁ work₂ work₃ : Work} (h : Quiet work₁ work₂) (h' : Quiet work₂ work₃) :
    Quiet work₁ work₃ :=
  ⟨h'.method.trans h.method, h.memo.trans h'.memo⟩

/-- A pass at rest stays at rest. -/
theorem Pass.Rests.quiet (h : p.Rests env work) (hquiet : Quiet work work') :
    p.Rests env work' := by
  cases p with
  | intrinsics | propertyUpdates | declarations =>
    unfold Pass.Rests at h ⊢
    rw [hquiet.method]
    exact h
  | castExpansion =>
    unfold Pass.Rests at h ⊢
    rw [hquiet.method]
    exact (lasting_castExpansion _ _ _).irreducible h hquiet.memo

theorem Pass.rests_of_step (hp : p ≠ .declarations) (h : p.step env work = (.ok false, work')) :
    Quiet work work' ∧ p.Rests env work' := by
  cases p with
  | intrinsics =>
    rcases hrun : (Pass.intrinsicForms env.types work.method.scope.retyping).run
      env.settings.maxReductionsPerNode work.method.body () with ⟨answer, body, s⟩
    simp only [Pass.step, hrun] at h
    cases h
    obtain ⟨rfl, -, hrests⟩ := (lasting_intrinsicForms _ _).unchanged hrun
    exact ⟨⟨rfl, .refl _⟩, hrests⟩
  | propertyUpdates =>
    rcases hrun : (propertyUpdate env.core).run env.settings.maxReductionsPerNode work.method.body
      work.method.scope with ⟨answer, body, scope⟩
    simp only [Pass.step, hrun] at h
    cases h
    obtain ⟨rfl, rfl, hrests⟩ := (lasting_propertyUpdate _).unchanged hrun
    exact ⟨⟨rfl, .refl _⟩, hrests⟩
  | castExpansion =>
    rcases hrun : (Canonical.castExpansion env.types work.method.scope.retyping
      env.settings.emulateInt64).run env.settings.maxReductionsPerNode work.method.body
      work.session.assignable with ⟨answer, body, assignable⟩
    simp only [Pass.step, hrun] at h
    cases h
    obtain ⟨rfl, hlater, hrests⟩ := (lasting_castExpansion _ _ _).unchanged hrun
    exact ⟨⟨rfl, hlater⟩, hrests⟩
  | declarations => exact absurd rfl hp

/-- A pass at rest changes nothing. -/
theorem Pass.step_of_rests (hp : p ≠ .declarations) (h : p.Rests env work) :
    p.step env work = (.ok false, work) := by
  cases p with
  | intrinsics | propertyUpdates | castExpansion =>
    unfold Pass.Rests at h
    simp only [Pass.step, Reducer.run_of_irreducible h]
  | declarations => exact absurd rfl hp

theorem Pass.appliesTo_of_ne (hp : p ≠ .declarations) (m : Lowered) : p.appliesTo m = true := by
  cases p with
  | intrinsics | propertyUpdates | castExpansion => rfl
  | declarations => exact absurd rfl hp

theorem Reducer.Irreducible.declareVariables {σ : Type} {w : Reducer σ} {s : σ} {m : Lowered}
    (h : w.Irreducible s m.body)
    (hblock : ∀ operands, w.reduct? ⟨.block none, operands⟩ s = (.ok none, s))
    (hdeclaration : ∀ operands, w.reduct? ⟨.variableDeclaration, operands⟩ s = (.ok none, s))
    (hvariable : ∀ v, w.reduct? (.ofVariable v) s = (.ok none, s)) :
    w.Irreducible s (Canonical.declareVariables m).2.body := by
  unfold Canonical.declareVariables
  split
  · exact h
  · have hdeclares : w.Irreducible s
        ⟨.variableDeclaration, (declaredIn m).map .ofVariable⟩ := by
      refine Reducer.irreducible_mk.mpr ⟨hdeclaration _, fun o ho => ?_⟩
      obtain ⟨v, -, rfl⟩ := List.mem_map.mp ho
      exact Reducer.irreducible_mk.mpr ⟨hvariable v, nofun⟩
    dsimp only
    unfold prepend
    split
    · next statements hbody =>
      rw [hbody, Reducer.irreducible_mk] at h
      exact Reducer.irreducible_mk.mpr ⟨hblock _, List.forall_mem_cons.mpr ⟨hdeclares, h.2⟩⟩
    · refine Reducer.irreducible_mk.mpr ⟨hblock _, ?_⟩
      simp only [List.forall_mem_cons]
      exact ⟨hdeclares, h, nofun⟩

theorem Pass.Rests.declared (h : p.Rests env work) :
    p.Rests env (Pass.step .declarations env work).2 := by
  cases p with
  | intrinsics | propertyUpdates | castExpansion =>
    unfold Pass.Rests at h ⊢
    simp only [Pass.step, scope_declareVariables]
    exact h.declareVariables (fun _ => rfl) (fun _ => rfl) fun _ => rfl
  | declarations =>
    simp only [Pass.Rests, Pass.step, Canonical.declareVariables]
    split <;> rfl

/-! ### Rounds -/

theorem rests_of_runOnce : ∀ {passes : List Pass} (work : Work),
    (∀ p ∈ passes, p ≠ Pass.declarations) →
    Leads (runOnce env passes) work
      (fun changed work' => changed = false → Quiet work work' ∧ ∀ p ∈ passes, p.Rests env work')
      fun _ => True
  | [], work, _ => .pure fun _ => ⟨.refl work, nofun⟩
  | p :: rest, work, hpasses => by
    obtain ⟨hp, hrest⟩ := List.forall_mem_cons.mp hpasses
    unfold runOnce
    refine .bind (x := get) ?_
    change Leads (if p.appliesTo work.method then _ else _) work _ _
    rw [if_pos (Pass.appliesTo_of_ne hp _)]
    refine .bind (Leads.running.mono (fun changed work₁ hrun => ?_) fun _ h => h)
    have hstep : p.step env work = (.ok changed, work₁) := hrun
    cases changed with
    | true =>
      refine .bind (x := note _) ?_
      exact .after fun others work' => .pure fun h => by cases h
    | false =>
      obtain ⟨hquiet, hrests⟩ := Pass.rests_of_step hp hstep
      refine .bind ((rests_of_runOnce work₁ hrest).mono (fun others work' hothers => ?_)
        fun _ h => h)
      refine .pure fun hfalse => ?_
      obtain ⟨hquiet', hrests'⟩ := hothers hfalse
      exact ⟨hquiet.trans hquiet', List.forall_mem_cons.mpr ⟨hrests.quiet hquiet', hrests'⟩⟩

theorem runOnce_of_rests : ∀ {passes : List Pass}, (∀ p ∈ passes, p ≠ Pass.declarations) →
    (∀ p ∈ passes, p.Rests env work) → (runOnce env passes).run work = (.ok false, work)
  | [], _, _ => rfl
  | p :: rest, hpasses, hrests => by
    obtain ⟨hp, hrest⟩ := List.forall_mem_cons.mp hpasses
    obtain ⟨hfirst, hothers⟩ := List.forall_mem_cons.mp hrests
    have hstep : (p.run env).run work = (.ok false, work) :=
      Pass.step_of_rests hp hfirst
    have hrun : (runOnce env rest).run work = (.ok false, work) :=
      runOnce_of_rests hrest hothers
    unfold runOnce
    change ((if p.appliesTo work.method then _ else _ : Refine Bool).run work) = _
    rw [if_pos (Pass.appliesTo_of_ne hp _), run_bind_eq, hstep]
    change ((runOnce env rest >>= fun others => pure (false || others) : Refine Bool).run work) = _
    rw [run_bind_eq, hrun]
    rfl

/-- Rounds until one changes nothing, as they are run, with the number of those that changed the
method. -/
def changingRounds (env : Env) (passes : List Pass) : Nat → Nat → Refine Nat
  | 0, _ => return 0
  | left + 1, done => do
    let changed ← runOnce env passes
    if changed then
      let name := (← get).method.method.fullName
      note (name ++ ": pass round " ++ toString (done + 1) ++ " changed the method")
      let more ← changingRounds env passes left (done + 1)
      return more + 1
    else
      return 0

theorem rounds_eq (env : Env) (passes : List Pass) : ∀ left done : Nat,
    Pipeline.rounds env passes left done
      = (fun count => decide (0 < count)) <$> changingRounds env passes left done
  | 0, _ => rfl
  | left + 1, done => by
    rw [Pipeline.rounds, changingRounds, map_bind]
    refine bind_congr fun changed => ?_
    cases changed with
    | false => rfl
    | true =>
      simp only [if_true, rounds_eq env passes left (done + 1), map_bind, bind_map_left, map_pure,
        Nat.succ_pos, decide_true]

theorem rests_of_changingRounds (hpasses : ∀ p ∈ passes, p ≠ Pass.declarations) :
    ∀ (left done : Nat) (work : Work), Leads (changingRounds env passes left done) work
      (fun count work' => count < left → ∀ p ∈ passes, p.Rests env work') fun _ => True
  | 0, _, _ => .pure fun h => absurd h (Nat.not_lt_zero _)
  | left + 1, done, work => by
    unfold changingRounds
    refine .bind
      ((rests_of_runOnce work hpasses).mono (fun changed work₁ hround => ?_) fun _ h => h)
    cases changed with
    | false => exact .pure fun _ => (hround rfl).2
    | true =>
      refine .bind (x := get) ?_
      refine .bind (x := note _) ?_
      refine .bind ((rests_of_changingRounds hpasses left (done + 1) _).mono
        (fun more work' hmore => ?_) fun _ h => h)
      exact .pure fun hlt => hmore (by omega)

theorem rests_of_pipeline {pipeline : Pipeline} (hcleanup : pipeline.cleanup = [.declarations])
    (hpasses : ∀ p ∈ pipeline.passes, p ≠ Pass.declarations) {changed : Bool} {count : Nat}
    (hrun : (pipeline.run env).run work = (.ok changed, work'))
    (hcount : ((changingRounds env pipeline.passes pipeline.iterations 0).run work
      : Except Error Nat × Work).1 = .ok count) (hfew : count < pipeline.iterations) :
    ∀ p ∈ pipeline.passes, p.Rests env work' := by
  rcases hrounds : (changingRounds env pipeline.passes pipeline.iterations 0).run work with ⟨answer, work₁⟩
  obtain rfl : answer = .ok count := by rw [← hcount, hrounds]
  have hrests : ∀ p ∈ pipeline.passes, p.Rests env work₁ := by
    rcases (rests_of_changingRounds hpasses _ 0 work).of_run hrounds with ⟨_, heq, h⟩ | ⟨⟨_, h⟩, _⟩
    · cases heq
      exact h hfew
    · cases h
  -- The rest of the run starts where the rounds ended.
  rw [Pipeline.run, rounds_eq, bind_map_left, run_bind_eq, hrounds, hcleanup] at hrun
  have hdeclared : Leads (runOnce env [.declarations]) work₁ _ _ :=
    runOnce_keeps (I := fun work => ∀ p ∈ pipeline.passes, p.Rests env work)
      (fun _ _ h p hp => (h p hp).quiet ⟨rfl, .refl _⟩)
      (fun p hp work h => by
        obtain rfl := List.mem_singleton.mp hp
        exact fun p hp => (h p hp).declared)
      hrests
  have hend : Leads (do let cleaned ← runOnce env [.declarations]
                        return decide (0 < count) || cleaned) work₁
      (fun _ work => ∀ p ∈ pipeline.passes, p.Rests env work) fun _ => True :=
    .bind (hdeclared.mono (fun _ _ h => .pure h) fun _ _ => trivial)
  rcases hend.of_run hrun with ⟨_, _, h⟩ | ⟨⟨_, h⟩, _⟩
  · exact h
  · cases h

/-- A common normal form of the passes of a round: no reducer has a replacement for a node of the
body, whatever the variables, and whatever is asked about types in the meantime. -/
structure NormalForm (env : Env) (work : Work) : Prop where
  calls : ∀ n ∈ work.method.body.selfAndDescendants,
    (Pass.intrinsicForms env.types work.method.scope.retyping).reduct? n () = (.ok none, ())
  updates : ∀ n ∈ work.method.body.selfAndDescendants,
    ∀ scope, (propertyUpdate env.core).reduct? n scope = (.ok none, scope)
  casts : ∀ n ∈ work.method.body.selfAndDescendants,
    ∀ memo, work.session.assignable.Before memo →
      (castExpansion env.types work.method.scope.retyping env.settings.emulateInt64).reduct? n memo
        = (.ok none, memo)

/-- Where fewer rounds changed the method than there may be, the usual pipeline ends in a common
normal form of the passes, and another round reports no change and leaves the method, its variables
and all that is remembered as they are. -/
theorem standard_reaches_normal_form {settings : Settings} {env : Env} {work work' : Work}
    {changed : Bool} {count : Nat}
    (hrun : ((Pipeline.standard settings).run env).run work = (.ok changed, work'))
    (hcount : ((changingRounds env (Pipeline.standard settings).passes settings.maxPassIterations
      0).run work : Except Error Nat × Work).1 = .ok count)
    (hfew : count < settings.maxPassIterations) :
    NormalForm env work'
      ∧ (runOnce env (Pipeline.standard settings).passes).run work' = (.ok false, work') := by
  have hpasses : ∀ p ∈ (Pipeline.standard settings).passes, p ≠ Pass.declarations := by
    simp [Pipeline.standard]
  have hrests := rests_of_pipeline rfl hpasses hrun hcount hfew
  have hcalls : Pass.Rests env work' .intrinsics := hrests _ (by simp [Pipeline.standard])
  have hupdates : Pass.Rests env work' .propertyUpdates := hrests _ (by simp [Pipeline.standard])
  have hcasts : Pass.Rests env work' .castExpansion := hrests _ (by simp [Pipeline.standard])
  refine ⟨⟨hcalls, fun n hn => ?_, fun n hn memo hmemo => ?_⟩, runOnce_of_rests hpasses hrests⟩
  · exact reduct?_propertyUpdate (hupdates n hn)
  · exact (lasting_castExpansion _ _ _).irreducible hcasts hmemo n hn

/-- A method that creates a delegate, casts it to its own type, and invokes it. -/
def castDelegateCall : Lowered :=
  let delegate : Ty := .named (.plain 41 "App" "D" (.ofFile "One") .delegateType)
  let callee : Method := { loopingMethod.method with name := "Called", parameters := [] }
  let invoke : Method := { callee with
    name := "Invoke", declaringType := delegate, flags := .empty }
  let created : Node := ⟨.newObject { invoke with name := ".ctor" } delegate,
    [.nullOf Core.standard.object, .methodIdentifier callee]⟩
  { method := callee
    body := .block [.expressionStatement
      (.invocation invoke .virtual false (.cast created delegate true) [])]
    scope := .empty
    variablesDeclared := false }

/-- In the first round the call becomes the call of a delegate and the cast goes, so that in the
second one the method of the delegate is called. The third round changes nothing, and there may be
four. -/
theorem castDelegateCall_normalized :
    ∃ changed work',
      ((Pipeline.standard .standard).run plainEnv).run ⟨castDelegateCall, .start⟩
          = (.ok changed, work')
        ∧ ((changingRounds plainEnv (Pipeline.standard .standard).passes
            Settings.standard.maxPassIterations 0).run ⟨castDelegateCall, .start⟩
              : Except Error Nat × Work).1 = .ok 2
        ∧ 2 < Settings.standard.maxPassIterations
        ∧ NormalForm plainEnv work'
        ∧ (runOnce plainEnv (Pipeline.standard .standard).passes).run work'
          = (.ok false, work') := by
  have hchecks : (((Pipeline.standard .standard).run plainEnv).run ⟨castDelegateCall, .start⟩
      : Except Error Bool × Work).1.toOption = some true
      ∧ ((changingRounds plainEnv (Pipeline.standard .standard).passes
        Settings.standard.maxPassIterations 0).run ⟨castDelegateCall, .start⟩
          : Except Error Nat × Work).1.toOption = some 2 := by
    decide +kernel
  have hcount := hchecks.2
  rcases hrun : (((Pipeline.standard .standard).run plainEnv).run ⟨castDelegateCall, .start⟩
    : Except Error Bool × Work) with ⟨e | changed, work'⟩
  · rw [hrun] at hchecks
    cases hchecks.1
  · rcases hrounds : ((changingRounds plainEnv (Pipeline.standard .standard).passes
        Settings.standard.maxPassIterations 0).run ⟨castDelegateCall, .start⟩
          : Except Error Nat × Work).1 with e | count
    · rw [hrounds] at hcount
      cases hcount
    · rw [hrounds] at hcount
      obtain rfl : count = 2 := Option.some.inj hcount
      have hfew : 2 < Settings.standard.maxPassIterations := by decide
      exact ⟨changed, work', rfl, rfl, hfew, standard_reaches_normal_form hrun hrounds hfew⟩

end Canonical

end ScriptLowering
