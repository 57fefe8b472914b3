import ScriptLowering.Proofs.Canonical.Walk

/-!
# What the limit on replacements bounds

The limit holds at each place by itself: a place is asked about at most once more than it may be
replaced, and a place that never settles is reported (`settle_of_proposes`). It does not hold below:
the operands of a replacement are places of their own, and a reducer that puts what it replaces
under something else comes to the same node again one level down.
-/

namespace ScriptLowering.Canonical

open Script

namespace Reducer

variable {σ : Type} {w : Reducer σ} {limit : Nat}

/-- A node that a walk comes to, with the state in which it does. -/
structure Site (σ : Type) where
  node : Node
  state : σ

/-- The first place settles, the operands that stand there settle one by one up to the second place,
and the walk comes to this one. -/
def Enters (w : Reducer σ) (limit : Nat) (p q : Site σ) : Prop :=
  let root := w.settle limit false p.node p.state
  ∃ (before later : List Node) (budget : Nat) (changed changedBefore : Bool),
    root.verdict = .settled changed ∧ root.result.operands = before ++ q.node :: later
      ∧ (reduceEach (w.reduceTree limit budget) before root.state).verdict = .settled changedBefore
      ∧ (reduceEach (w.reduceTree limit budget) before root.state).state = q.state

/-! ### Ends and descents -/

variable {p : Site σ}

theorem Enters.ends {q : Site σ} (h : w.Enters limit p q) {budget : Nat}
    (hp : (w.reduceTree limit (budget + 1) p.node p.state).verdict ≠ .unfinished) :
    (w.reduceTree limit budget q.node q.state).verdict ≠ .unfinished := by
  obtain ⟨before, later, budget', c, c', hroot, hoperands, hbefore, hstate⟩ := h
  rw [verdict_reduceTree_of_settled hroot, hoperands, Ne, Verdict.after_eq_unfinished] at hp
  -- The operands before the second place end within this budget as well, and so in the same way.
  have hends : (reduceEach (w.reduceTree limit budget) before
      (w.settle limit false p.node p.state).state).verdict ≠ .unfinished := by
    intro hunfinished
    refine hp ?_
    rw [verdict_reduceEach_append, hunfinished]
    intro d hd
    rw [hunfinished] at hd
    cases hd
  have hsame := reduceEach_eq hends (Verdict.ne_unfinished_of_settled hbefore)
  rw [reduceEach_append _ (hsame ▸ hbefore), hsame, hstate] at hp
  intro hunfinished
  refine hp ?_
  simp only [reduceEach, hunfinished, Verdict.after]

theorem acc_of_ends : ∀ {budget : Nat} {p : Site σ},
    (w.reduceTree limit budget p.node p.state).verdict ≠ .unfinished →
    Acc (fun q p => w.Enters limit p q) p := by
  intro budget
  induction budget with
  | zero => exact fun h => absurd rfl h
  | succ budget ih => exact fun h => ⟨_, fun q hq => ih (hq.ends h)⟩

theorem exists_reduceEach_ends {c : Bool}
    (hroot : (w.settle limit false p.node p.state).verdict = .settled c)
    (hentered : ∀ q, w.Enters limit p q → w.Ends limit q.node q.state) :
    ∀ (later before : List Node) (budget : Nat) (d : Bool),
      (w.settle limit false p.node p.state).result.operands = before ++ later →
      (reduceEach (w.reduceTree limit budget) before
        (w.settle limit false p.node p.state).state).verdict = .settled d →
      ∃ budget', (reduceEach (w.reduceTree limit budget') (before ++ later)
        (w.settle limit false p.node p.state).state).verdict ≠ .unfinished
  | [], before, budget, d, _, hbefore => by
    refine ⟨budget, ?_⟩
    rw [List.append_nil]
    exact Verdict.ne_unfinished_of_settled hbefore
  | o :: later, before, budget, d, hoperands, hbefore => by
    -- The next operand is entered, so it ends; take a budget for it and those before it.
    obtain ⟨budget', ho⟩ := hentered ⟨o, _⟩
      ⟨before, later, budget, c, d, hroot, hoperands, hbefore, rfl⟩
    have hsame := reduceEach_of_settled hbefore (Nat.le_max_left budget budget')
    rw [← reduceTree_of_le ho (Nat.le_max_right budget budget'), ← hsame] at ho
    rw [← hsame] at hbefore
    generalize max budget budget' = enough at ho hbefore
    have hsingle := reduceEach_append [o] hbefore
    cases hverdict : (w.reduceTree limit enough o (reduceEach (w.reduceTree limit enough) before
        (w.settle limit false p.node p.state).state).state).verdict with
    | settled d' =>
      have hnext : (reduceEach (w.reduceTree limit enough) (before ++ [o])
          (w.settle limit false p.node p.state).state).verdict = .settled (d || (d' || false)) := by
        rw [hsingle]
        simp only [reduceEach, hverdict, Verdict.after]
      have hrest := exists_reduceEach_ends hroot hentered later (before ++ [o]) enough _
        (by rw [hoperands, List.append_assoc, List.singleton_append]) hnext
      rw [List.append_assoc, List.singleton_append] at hrest
      exact hrest
    | failed e =>
      refine ⟨enough, Verdict.ne_unfinished_of_failed (e := e) ?_⟩
      rw [reduceEach_append _ hbefore]
      simp only [reduceEach, hverdict, Verdict.after]
    | unfinished => exact absurd hverdict ho

theorem ends_of_acc (h : Acc (fun q p => w.Enters limit p q) p) : w.Ends limit p.node p.state := by
  induction h with
  | intro p _ ih =>
    by_cases hroot : ∃ c, (w.settle limit false p.node p.state).verdict = .settled c
    · obtain ⟨c, hc⟩ := hroot
      obtain ⟨budget, hends⟩ := exists_reduceEach_ends hc ih _ [] 0 false rfl rfl
      refine ⟨budget + 1, ?_⟩
      rw [verdict_reduceTree_of_settled hc, Ne, Verdict.after_eq_unfinished]
      exact hends
    · rw [not_exists] at hroot
      refine ⟨1, ?_⟩
      rw [reduceTree_of_not_settled hroot]
      exact settle_ne_unfinished limit _ _ _

theorem stops_iff_acc : w.Stops limit p.node p.state ↔ Acc (fun q p => w.Enters limit p q) p := by
  rw [stops_iff_ends]
  exact ⟨fun h => acc_of_ends h.choose_spec, ends_of_acc⟩

/-! ### Places that do not settle -/

/-- The reducer proposes so many replacements in a row, all of them valid. -/
def Proposes (w : Reducer σ) : Nat → Site σ → Prop
  | 0, _ => True
  | k + 1, p => ∃ m s, w.reduct? p.node p.state = (.ok (some m), s) ∧ m.validate = .ok ()
      ∧ w.Proposes k ⟨m, s⟩

/-- A place at which the reducer proposes valid replacements without end. -/
def NeverSettles (w : Reducer σ) (p : Site σ) : Prop :=
  ∀ k, w.Proposes k p

/-- One proposal too many is reported. -/
theorem settle_of_proposes : ∀ (left : Nat) (changed : Bool) {p : Site σ},
    w.Proposes (left + 1) p →
    (w.settle left changed p.node p.state).verdict = .failed (.reductionLimit w.name) := by
  intro left
  induction left with
  | zero =>
    rintro changed p ⟨m, s, hstep, -, -⟩
    unfold settle
    rw [hstep]
  | succ left ih =>
    rintro changed p ⟨m, s, hstep, hvalid, hrest⟩
    rw [settle, hstep]
    dsimp only
    rw [hvalid]
    exact ih true hrest

theorem Enters.failed {q : Site σ} (h : w.Enters limit p q) {e : Error}
    (hq : ∃ budget, (w.reduceTree limit budget q.node q.state).verdict = .failed e) :
    ∃ budget, (w.reduceTree limit budget p.node p.state).verdict = .failed e := by
  obtain ⟨before, later, budget, c, c', hroot, hoperands, hbefore, hstate⟩ := h
  obtain ⟨budget', hq⟩ := hq
  have hsame := reduceEach_of_settled hbefore (Nat.le_max_left budget budget')
  have hlater := reduceTree_of_le (Verdict.ne_unfinished_of_failed hq)
    (Nat.le_max_right budget budget')
  refine ⟨max budget budget' + 1, ?_⟩
  rw [verdict_reduceTree_of_settled hroot, hoperands, Verdict.after_eq_failed]
  rw [reduceEach_append _ (hsame ▸ hbefore), hsame, hstate]
  simp only [reduceEach, hlater, hq, Verdict.after]

theorem exists_failed_of_neverSettles {q : Site σ} (h : Relation.ReflTransGen (w.Enters limit) p q)
    (hq : w.NeverSettles q) :
    ∃ budget, (w.reduceTree limit budget p.node p.state).verdict
      = .failed (.reductionLimit w.name) := by
  induction h using Relation.ReflTransGen.head_induction_on with
  | refl =>
    have hfails := settle_of_proposes limit false (hq (limit + 1))
    refine ⟨1, ?_⟩
    rw [reduceTree_of_not_settled (by simp [hfails]), hfails]
  | head hstep _ ih => exact hstep.failed ih

end Reducer

/-! ### What is bounded -/

open Reducer

/-- A walk stops exactly if it does not go down forever, and then it settles or fails in the same way
within all larger budgets. Each place takes at most one call more than replacements are allowed. If
the walk comes to a place that never settles, then it stops there and the limit is reported. -/
theorem stops_iff_no_endless_descent {σ : Type} (w : Reducer σ) (limit : Nat) (n : Node) (s : σ) :
    (w.Stops limit n s ↔ ¬∃ place : Nat → Site σ,
      place 0 = ⟨n, s⟩ ∧ ∀ i, w.Enters limit (place i) (place (i + 1)))
    ∧ (w.Stops limit n s → ∃ ending : Progress σ Node, ending.verdict ≠ .unfinished
      ∧ ∃ budget, ∀ budget' ≥ budget, w.reduceTree limit budget' n s = ending)
    ∧ (∀ p : Site σ, w.callsAt limit p.node p.state ≤ limit + 1)
    ∧ ∀ p, Relation.ReflTransGen (w.Enters limit) ⟨n, s⟩ p → w.NeverSettles p →
      ∃ budget, ∀ budget' ≥ budget,
        (w.reduceTree limit budget' n s).verdict = .failed (.reductionLimit w.name) := by
  refine ⟨?_, fun hstops => ?_, fun p => ?_, fun p hreached hp => ?_⟩
  · rw [stops_iff_acc (p := ⟨n, s⟩)]
    exact (not_iff_comm.mp not_acc_iff_exists_descending_chain).symm
  · obtain ⟨budget, hends⟩ := stops_iff_ends.mp hstops
    exact ⟨_, hends, budget, fun _ hle => reduceTree_of_le hends hle⟩
  · have hcount := (count_settle (w := w) limit false p.node (p.state, 0)).2
    dsimp only at hcount
    unfold callsAt
    omega
  · obtain ⟨budget, hfails⟩ := exists_failed_of_neverSettles hreached hp
    refine ⟨budget, fun budget' hle => ?_⟩
    rw [reduceTree_of_le (Verdict.ne_unfinished_of_failed hfails) hle, hfails]

/-- A reducer that turns each truth constant into the other one. -/
def flipping : Reducer Unit :=
  substitution [(.boolean true, .boolean false), (.boolean false, .boolean true)]

theorem flipping_proposes : ∀ (k : Nat) (value : Bool), flipping.Proposes k ⟨.boolean value, ()⟩
  | 0, _ => trivial
  | k + 1, value => by
    refine ⟨.boolean !value, (), ?_, rfl, flipping_proposes k _⟩
    cases value <;> rfl

/-- Flipping the truth constant of a statement in a block never settles. The walk comes to it, asks
about it no more than five times where four replacements are allowed, and reports the limit. -/
theorem flipping_reported :
    flipping.callsAt 4 (.boolean true) () ≤ 5
      ∧ ∃ budget, (flipping.reduceTree 4 budget
          (.block [.expressionStatement (.boolean true)]) ()).verdict
        = .failed (.reductionLimit "rules") := by
  have hlimit := stops_iff_no_endless_descent flipping 4
    (.block [.expressionStatement (.boolean true)]) ()
  have hstatement : flipping.Enters 4 ⟨.block [.expressionStatement (.boolean true)], ()⟩
      ⟨.expressionStatement (.boolean true), ()⟩ :=
    ⟨[], [], 0, false, false, rfl, rfl, rfl, rfl⟩
  have hconstant : flipping.Enters 4 ⟨.expressionStatement (.boolean true), ()⟩
      ⟨.boolean true, ()⟩ :=
    ⟨[], [], 0, false, false, rfl, rfl, rfl, rfl⟩
  obtain ⟨budget, hfails⟩ := hlimit.2.2.2 ⟨.boolean true, ()⟩
    (.head hstatement (.single hconstant)) fun k => flipping_proposes k true
  exact ⟨hlimit.2.2.1 ⟨.boolean true, ()⟩, budget, hfails budget (Nat.le_refl _)⟩

/-- A local variable that holds a truth value. -/
def flag : Node :=
  .ofVariable
    { id := 0, name := "x", kind := .localVariable, declaredType := Core.standard.boolean }

/-- A reducer that negates a variable. -/
def negating : Reducer Unit :=
  substitution [(flag, .logicalNot Core.standard flag)]

/-- Where ten replacements are allowed at each place, putting the negation of a variable for the
variable does not stop, and is reported within no budget. -/
theorem negation_never_stops :
    ¬negating.Stops 10 flag ()
      ∧ ¬∃ budget, (negating.reduceTree 10 budget flag ()).verdict ≠ .unfinished := by
  have henters : negating.Enters 10 ⟨flag, ()⟩ ⟨flag, ()⟩ :=
    ⟨[], [], 0, true, false, rfl, rfl, rfl, rfl⟩
  have hstops : ¬negating.Stops 10 flag () := by
    rw [stops_iff_acc (p := ⟨flag, ()⟩)]
    exact not_acc_iff_exists_descending_chain.mpr ⟨fun _ => ⟨flag, ()⟩, rfl, fun _ => henters⟩
  exact ⟨hstops, fun hends => hstops (stops_iff_ends.mpr hends)⟩

end ScriptLowering.Canonical
