import Mathlib.Data.Finset.Lattice.Fold
import ScriptLowering.Canonical.Reduction

/-!
# Walks and their budgets

A reduction is given a budget of levels, and the walk over the tree may use it up. The budget is no
part of the rule: once a walk ends within some budget, every larger budget leads to the same end
(`reduceTree_of_le`). So there is a walk without a budget, which either ends or goes on forever.
Reducers that propose the same go the same way (`reduceTree_alike`).
-/

namespace ScriptLowering.Canonical

open Script

/-! ### Verdicts -/

namespace Verdict

variable {v : Verdict} {changed : Bool}

@[simp] theorem after_eq_unfinished : v.after changed = .unfinished ↔ v = .unfinished := by
  cases v <;> simp [after]

theorem after_eq_failed {e : Error} : v.after changed = .failed e ↔ v = .failed e := by
  cases v <;> simp [after]

theorem after_false (v : Verdict) : v.after false = v := by
  cases v <;> simp [after]

theorem after_after (v : Verdict) (c d : Bool) : (v.after c).after d = v.after (d || c) := by
  cases v <;> simp [after, Bool.or_assoc]

theorem ne_unfinished_of_settled {c : Bool} (h : v = .settled c) : v ≠ .unfinished := by
  simp [h]

theorem ne_unfinished_of_failed {e : Error} (h : v = .failed e) : v ≠ .unfinished := by
  simp [h]

theorem exists_settled_of_after {c : Bool} (h : v.after changed = .settled c) :
    ∃ d, v = .settled d ∧ c = (changed || d) := by
  cases v with
  | settled d => exact ⟨d, rfl, (settled.inj h).symm⟩
  | failed e => cases h
  | unfinished => cases h

end Verdict

namespace Reducer

variable {σ : Type} {w : Reducer σ} {limit : Nat}

/-! ### Single places -/

theorem settle_ne_unfinished (left : Nat) (changed : Bool) (n : Node) (s : σ) :
    (w.settle left changed n s).verdict ≠ .unfinished := by
  fun_induction settle w left changed n s with
  | case1 | case2 | case3 | case4 => exact nofun
  | case5 _ _ _ _ _ _ _ _ _ ih => exact ih

/-! ### Operands -/

variable {s : σ} {budget : Nat} {n : Node} {c : Bool} {f : Node → σ → Progress σ Node}
  {operands : List Node}

theorem reduceEach_append {before : List Node} (later : List Node)
    (h : (reduceEach f before s).verdict = .settled c) :
    reduceEach f (before ++ later) s
      = let rest := reduceEach f later (reduceEach f before s).state
        ⟨(reduceEach f before s).result ++ rest.result, rest.state, rest.verdict.after c⟩ := by
  induction before generalizing s c with
  | nil =>
    obtain rfl : false = c := Verdict.settled.inj h
    simp only [reduceEach, List.nil_append, Verdict.after_false]
  | cons n before ih =>
    simp only [reduceEach, List.cons_append] at h ⊢
    cases hfirst : (f n s).verdict with
    | settled d =>
      rw [hfirst] at h
      dsimp only at h ⊢
      obtain ⟨d', hbefore, rfl⟩ := Verdict.exists_settled_of_after h
      rw [ih hbefore]
      simp only [List.cons_append, Verdict.after_after]
    | failed _ | unfinished => rw [hfirst] at h; cases h

theorem verdict_reduceEach_append {before : List Node} (later : List Node)
    (h : ∀ c, (reduceEach f before s).verdict ≠ .settled c) :
    (reduceEach f (before ++ later) s).verdict = (reduceEach f before s).verdict := by
  induction before generalizing s with
  | nil => exact absurd rfl (h false)
  | cons n before ih =>
    simp only [reduceEach, List.cons_append] at h ⊢
    cases hfirst : (f n s).verdict with
    | settled d =>
      rw [hfirst] at h
      dsimp only at h ⊢
      have hbefore : ∀ c, (reduceEach f before (f n s).state).verdict ≠ .settled c := by
        intro c hc
        exact h (d || c) (by rw [hc, Verdict.after])
      rw [ih hbefore]
    | failed e => rfl
    | unfinished => rfl

theorem reduceEach_of_ends {g : Node → σ → Progress σ Node}
    (hfg : ∀ n s, (f n s).verdict ≠ .unfinished → g n s = f n s) :
    ∀ {operands : List Node} {s : σ}, (reduceEach f operands s).verdict ≠ .unfinished →
      reduceEach g operands s = reduceEach f operands s
  | [], _, _ => rfl
  | n :: rest, s, h => by
    have hfirst : (f n s).verdict ≠ .unfinished := by
      intro hunfinished
      exact h (by simp only [reduceEach, hunfinished])
    simp only [reduceEach, hfg n s hfirst] at h ⊢
    cases hverdict : (f n s).verdict with
    | settled c =>
      rw [hverdict] at h
      have hrest : (reduceEach f rest (f n s).state).verdict ≠ .unfinished := by
        intro hunfinished
        exact h (by simp [hunfinished])
      simp only [reduceEach_of_ends hfg hrest]
    | failed e => rfl
    | unfinished => exact absurd hverdict hfirst

/-! ### Budgets -/

theorem reduceTree_of_not_settled (h : ∀ c, (w.settle limit false n s).verdict ≠ .settled c) :
    w.reduceTree limit (budget + 1) n s = w.settle limit false n s := by
  rw [reduceTree]
  cases hroot : (w.settle limit false n s).verdict with
  | settled c => exact absurd hroot (h c)
  | failed e => rfl
  | unfinished => rfl

theorem reduceTree_of_settled (h : (w.settle limit false n s).verdict = .settled c) :
    w.reduceTree limit (budget + 1) n s
      = let root := w.settle limit false n s
        let operands := reduceEach (w.reduceTree limit budget) root.result.operands root.state
        ⟨⟨root.result.form, operands.result⟩, operands.state, operands.verdict.after c⟩ := by
  simp only [reduceTree, h]

theorem verdict_reduceTree_of_settled (h : (w.settle limit false n s).verdict = .settled c) :
    (w.reduceTree limit (budget + 1) n s).verdict
      = (reduceEach (w.reduceTree limit budget) (w.settle limit false n s).result.operands
          (w.settle limit false n s).state).verdict.after c := by
  rw [reduceTree_of_settled h]

theorem reduceTree_succ : ∀ {budget : Nat} {n : Node} {s : σ},
    (w.reduceTree limit budget n s).verdict ≠ .unfinished →
    w.reduceTree limit (budget + 1) n s = w.reduceTree limit budget n s := by
  intro budget
  induction budget with
  | zero => exact fun h => absurd rfl h
  | succ budget ih =>
    intro n s h
    by_cases hroot : ∃ c, (w.settle limit false n s).verdict = .settled c
    · obtain ⟨c, hc⟩ := hroot
      rw [verdict_reduceTree_of_settled hc, Ne, Verdict.after_eq_unfinished] at h
      rw [reduceTree_of_settled hc, reduceTree_of_settled hc]
      simp only [reduceEach_of_ends (fun _ _ => ih) h]
    · rw [not_exists] at hroot
      rw [reduceTree_of_not_settled hroot, reduceTree_of_not_settled hroot]

variable {budget' : Nat}

theorem reduceTree_of_le (h : (w.reduceTree limit budget n s).verdict ≠ .unfinished)
    (hle : budget ≤ budget') : w.reduceTree limit budget' n s = w.reduceTree limit budget n s := by
  induction budget', hle using Nat.le_induction with
  | base => rfl
  | succ budget' _ ih => rw [reduceTree_succ (by rw [ih]; exact h), ih]

theorem reduceEach_of_le
    (h : (reduceEach (w.reduceTree limit budget) operands s).verdict ≠ .unfinished)
    (hle : budget ≤ budget') :
    reduceEach (w.reduceTree limit budget') operands s
      = reduceEach (w.reduceTree limit budget) operands s :=
  reduceEach_of_ends (fun _ _ h => reduceTree_of_le h hle) h

theorem reduceEach_of_settled
    (h : (reduceEach (w.reduceTree limit budget) operands s).verdict = .settled c)
    (hle : budget ≤ budget') :
    reduceEach (w.reduceTree limit budget') operands s
      = reduceEach (w.reduceTree limit budget) operands s :=
  reduceEach_of_le (Verdict.ne_unfinished_of_settled h) hle

theorem reduceEach_eq
    (h : (reduceEach (w.reduceTree limit budget) operands s).verdict ≠ .unfinished)
    (h' : (reduceEach (w.reduceTree limit budget') operands s).verdict ≠ .unfinished) :
    reduceEach (w.reduceTree limit budget) operands s
      = reduceEach (w.reduceTree limit budget') operands s := by
  rw [← reduceEach_of_le h (Nat.le_max_left budget budget'),
    ← reduceEach_of_le h' (Nat.le_max_right budget budget')]

/-- A walk that ends within some budget. -/
def Ends (w : Reducer σ) (limit : Nat) (n : Node) (s : σ) : Prop :=
  ∃ budget, (w.reduceTree limit budget n s).verdict ≠ .unfinished

/-! ### Reducers side by side -/

section

variable {τ : Type} {w' : Reducer τ} {R : σ → τ → Prop} {kept : Node → Prop}

/-- Two reductions that went the same way. -/
structure Alike {α : Type} (R : σ → τ → Prop) (p : Progress σ α) (q : Progress τ α)
    (kept : α → Prop) : Prop where
  result : p.result = q.result
  verdict : p.verdict = q.verdict
  state : R p.state q.state
  kept : kept p.result

/-- Two reducers that propose the same in related states, keep states related, and stay in a set of
trees. -/
structure GoesWith (w : Reducer σ) (w' : Reducer τ) (R : σ → τ → Prop) (kept : Node → Prop) :
    Prop where
  name : w.name = w'.name
  reduct {n : Node} {s : σ} {t : τ} : kept n → R s t →
    (w.reduct? n s).1 = (w'.reduct? n t).1 ∧ R (w.reduct? n s).2 (w'.reduct? n t).2
      ∧ ∀ r, (w.reduct? n s).1 = .ok (some r) → kept r
  operand {n : Node} : kept n → ∀ o ∈ n.operands, kept o
  congr {n : Node} {operands : List Node} : kept n → (∀ o ∈ operands, kept o) →
    kept ⟨n.form, operands⟩

theorem GoesWith.step (hw : w.GoesWith w' R kept) {n : Node} {s : σ} {t : τ} (hn : kept n)
    (hs : R s t) :
    ∃ answer s' t', w.reduct? n s = (answer, s') ∧ w'.reduct? n t = (answer, t') ∧ R s' t'
      ∧ ∀ r, answer = .ok (some r) → kept r := by
  obtain ⟨hsame, hstate, hkept⟩ := hw.reduct hn hs
  exact ⟨_, _, _, rfl, Prod.ext hsame.symm rfl, hstate, hkept⟩

theorem settle_alike (hw : w.GoesWith w' R kept) (left : Nat) :
    ∀ (changed : Bool) {n : Node} {s : σ} {t : τ}, kept n → R s t →
      Alike R (w.settle left changed n s) (w'.settle left changed n t) kept := by
  induction left with
  | zero =>
    intro changed n s t hn hs
    obtain ⟨answer, s', t', hstep, hstep', hstate, -⟩ := hw.step hn hs
    unfold settle
    rw [hstep, hstep', hw.name]
    rcases answer with e | (_ | r) <;> exact ⟨rfl, rfl, hstate, hn⟩
  | succ left ih =>
    intro changed n s t hn hs
    obtain ⟨answer, s', t', hstep, hstep', hstate, hkept⟩ := hw.step hn hs
    rw [settle, settle, hstep, hstep']
    rcases answer with e | (_ | r)
    · exact ⟨rfl, rfl, hstate, hn⟩
    · exact ⟨rfl, rfl, hstate, hn⟩
    · -- The same replacement takes both places, or is refused at both.
      dsimp only
      cases r.validate with
      | error e => exact ⟨rfl, rfl, hstate, hn⟩
      | ok _ => exact ih true (hkept r rfl) hstate

theorem reduceEach_alike {g : Node → τ → Progress τ Node}
    (hf : ∀ {n : Node} {s : σ} {t : τ}, kept n → R s t → Alike R (f n s) (g n t) kept) :
    ∀ {ns : List Node} {s : σ} {t : τ}, (∀ n ∈ ns, kept n) → R s t →
      Alike R (reduceEach f ns s) (reduceEach g ns t) (fun rs => ∀ r ∈ rs, kept r)
  | [], _, _, _, hs => ⟨rfl, rfl, hs, by simp [reduceEach]⟩
  | n :: rest, s, t, h, hs => by
    obtain ⟨hn, hrest⟩ := List.forall_mem_cons.mp h
    have hfirst := hf hn hs
    simp only [reduceEach]
    rw [← hfirst.verdict, ← hfirst.result]
    split
    · have hothers := reduceEach_alike hf hrest hfirst.state
      refine ⟨?_, ?_, hothers.state, List.forall_mem_cons.mpr ⟨hfirst.kept, hothers.kept⟩⟩
      · rw [hothers.result]
      · rw [hothers.verdict]
    · exact ⟨rfl, rfl, hfirst.state, List.forall_mem_cons.mpr ⟨hfirst.kept, hrest⟩⟩

theorem reduceTree_alike (hw : w.GoesWith w' R kept) (limit budget : Nat) :
    ∀ {n : Node} {s : σ} {t : τ}, kept n → R s t →
      Alike R (w.reduceTree limit budget n s) (w'.reduceTree limit budget n t) kept := by
  induction budget with
  | zero => exact fun hn hs => ⟨rfl, rfl, hs, hn⟩
  | succ budget ih =>
    intro n s t hn hs
    have hroot := settle_alike hw limit false hn hs
    simp only [reduceTree]
    rw [← hroot.verdict]
    split
    · rw [← hroot.result]
      have hoperands := reduceEach_alike ih (hw.operand hroot.kept) hroot.state
      refine ⟨?_, ?_, hoperands.state, hw.congr hroot.kept hoperands.kept⟩
      · rw [hoperands.result]
      · rw [hoperands.verdict]
    · exact hroot

end

/-! ### Calls -/

/-- The reducer with its calls counted in the state. -/
def counted (w : Reducer σ) : Reducer (σ × Nat) where
  name := w.name
  reduct? n s := ((w.reduct? n s.1).1, (w.reduct? n s.1).2, s.2 + 1)

/-- The number of calls of the reducer in a walk within a budget. -/
def calls (w : Reducer σ) (limit budget : Nat) (n : Node) (s : σ) : Nat :=
  (w.counted.reduceTree limit budget n (s, 0)).state.2

/-- The number of calls of the reducer at one place. -/
def callsAt (w : Reducer σ) (limit : Nat) (n : Node) (s : σ) : Nat :=
  (w.counted.settle limit false n (s, 0)).state.2

/-- A walk that stops: whatever the budget, it takes no more than some number of calls. -/
def Stops (w : Reducer σ) (limit : Nat) (n : Node) (s : σ) : Prop :=
  ∃ most, ∀ budget, w.calls limit budget n s ≤ most

/-- Counting does not change a walk. -/
theorem forgets_reduceTree (w : Reducer σ) (limit budget : Nat) (n : Node) (s : σ × Nat) :
    Alike (fun s t => s.1 = t) (w.counted.reduceTree limit budget n s)
      (w.reduceTree limit budget n s.1) fun _ => True := by
  have hw : w.counted.GoesWith w (fun s t => s.1 = t) fun _ => True := by
    refine ⟨rfl, ?_, fun _ _ _ => trivial, fun _ _ => trivial⟩
    rintro n s _ - rfl
    exact ⟨rfl, rfl, fun _ _ => trivial⟩
  exact reduceTree_alike hw limit budget trivial rfl

/-- A counted step is a step, and one call. -/
theorem counted_step {answer : Except Error (Option Node)} {n : Node} {s s' : σ × Nat}
    (hstep : w.counted.reduct? n s = (answer, s')) :
    w.reduct? n s.1 = (answer, s'.1) ∧ s'.2 = s.2 + 1 := by
  obtain ⟨rfl, rfl⟩ := Prod.mk.inj hstep
  exact ⟨rfl, rfl⟩

theorem count_settle (left : Nat) (changed : Bool) (n : Node) (s : σ × Nat) :
    s.2 < (w.counted.settle left changed n s).state.2
      ∧ (w.counted.settle left changed n s).state.2 ≤ s.2 + left + 1 := by
  fun_induction settle w.counted left changed n s with
  | case1 _ _ _ _ _ _ hstep | case2 _ _ _ _ _ hstep | case3 _ _ _ _ _ hstep
  | case4 _ _ _ _ _ hstep =>
    have hcount := (counted_step hstep).2
    dsimp only
    omega
  | case5 _ _ _ _ _ hstep _ _ _ ih =>
    have hcount := (counted_step hstep).2
    omega

theorem count_reduceEach {f : Node → σ × Nat → Progress (σ × Nat) Node}
    (hgrows : ∀ n s, s.2 ≤ (f n s).state.2)
    (hcount : ∀ n s, (f n s).verdict = .unfinished → s.2 + budget ≤ (f n s).state.2) :
    ∀ (operands : List Node) (s : σ × Nat),
      s.2 ≤ (reduceEach f operands s).state.2
        ∧ ((reduceEach f operands s).verdict = .unfinished →
          s.2 + budget ≤ (reduceEach f operands s).state.2)
  | [], _ => ⟨Nat.le_refl _, fun h => by cases h⟩
  | n :: rest, s => by
    have hfirst := hgrows n s
    simp only [reduceEach]
    cases hverdict : (f n s).verdict with
    | settled c =>
      obtain ⟨hle, hunfinished⟩ := count_reduceEach hgrows hcount rest (f n s).state
      refine ⟨Nat.le_trans hfirst hle, fun h => ?_⟩
      have hrest := hunfinished (Verdict.after_eq_unfinished.mp h)
      dsimp only
      omega
    | failed e => exact ⟨hfirst, fun h => by cases h⟩
    | unfinished => exact ⟨hfirst, fun _ => hcount n s hverdict⟩

theorem count_reduceTree (limit : Nat) : ∀ (budget : Nat) (n : Node) (s : σ × Nat),
    s.2 ≤ (w.counted.reduceTree limit budget n s).state.2
      ∧ ((w.counted.reduceTree limit budget n s).verdict = .unfinished →
        s.2 + budget ≤ (w.counted.reduceTree limit budget n s).state.2) := by
  intro budget
  induction budget with
  | zero => exact fun n s => ⟨Nat.le_refl _, fun _ => Nat.le_refl _⟩
  | succ budget ih =>
    intro n s
    have hplace := (count_settle (w := w) limit false n s).1
    by_cases hroot : ∃ c, (w.counted.settle limit false n s).verdict = .settled c
    · obtain ⟨c, hc⟩ := hroot
      rw [reduceTree_of_settled hc]
      obtain ⟨hle, hunfinished⟩ := count_reduceEach (fun n s => (ih n s).1) (fun n s => (ih n s).2)
        (w.counted.settle limit false n s).result.operands (w.counted.settle limit false n s).state
      refine ⟨by dsimp only; omega, fun h => ?_⟩
      have hoperands := hunfinished (Verdict.after_eq_unfinished.mp h)
      dsimp only
      omega
    · rw [not_exists] at hroot
      rw [reduceTree_of_not_settled hroot]
      exact ⟨Nat.le_of_lt hplace, fun h => absurd h (settle_ne_unfinished limit _ _ _)⟩

/-- Where a walk ends, counting it ends. -/
theorem ends_counted (h : w.Ends limit n s) : w.counted.Ends limit n (s, 0) := by
  obtain ⟨budget, hends⟩ := h
  refine ⟨budget, ?_⟩
  rw [(forgets_reduceTree w limit budget n (s, 0)).verdict]
  exact hends

theorem stops_iff_ends : w.Stops limit n s ↔ w.Ends limit n s := by
  constructor
  · -- More calls than there may be are too many levels.
    rintro ⟨most, hmost⟩
    refine ⟨most + 1, fun hunfinished => ?_⟩
    rw [← (forgets_reduceTree w limit (most + 1) n (s, 0)).verdict] at hunfinished
    have hcalls := (count_reduceTree limit (most + 1) n (s, 0)).2 hunfinished
    have hle : (w.counted.reduceTree limit (most + 1) n (s, 0)).state.2 ≤ most := hmost (most + 1)
    omega
  · -- From the budget on, the number of calls stays; below it there are finitely many budgets.
    intro h
    obtain ⟨budget, hends⟩ := ends_counted h
    refine ⟨(Finset.range (budget + 1)).sup fun b => w.calls limit b n s, fun b => ?_⟩
    have hbelow : ∀ b ≤ budget,
        w.calls limit b n s ≤ (Finset.range (budget + 1)).sup fun b => w.calls limit b n s := by
      intro b hb
      exact Finset.le_sup (f := fun b => w.calls limit b n s) (Finset.mem_range.mpr (by omega))
    by_cases hb : b ≤ budget
    · exact hbelow b hb
    · have hsame : w.calls limit b n s = w.calls limit budget n s := by
        unfold calls
        rw [reduceTree_of_le hends (by omega)]
      rw [hsame]
      exact hbelow budget (Nat.le_refl _)

end Reducer

end ScriptLowering.Canonical
