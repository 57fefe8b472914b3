import ScriptLowering.Canonical.Reduction
import ScriptLowering.Proofs.Script.Tree

/-!
# What a reduction that settles keeps

A reduction that ends without failure has replaced every place until no replacement was proposed,
from the root down. `Reducer.Law` lists what has to be known of a reducer for one node at a time: an
invariant of trees, a relation between a tree and what it becomes, and a property of nodes that are
not replaced any more. `Reducer.Law.run` carries it over to whole reductions: the result satisfies
the invariant, is related to the tree before, and all its nodes have the property.
-/

namespace ScriptLowering.Canonical.Reducer

open Script

variable {σ : Type} {inv done : Node → Prop} {rel : Node → Node → Prop}

theorem forall_mem_right {r : Node → Node → Prop} {p : Node → Prop} (hr : ∀ n n', r n n' → p n')
    {ns ns' : List Node} (h : List.Forall₂ r ns ns') : ∀ n' ∈ ns', p n' := by
  induction h with
  | nil => exact fun _ hn' => absurd hn' List.not_mem_nil
  | cons hfirst _ ih => exact List.forall_mem_cons.mpr ⟨hr _ _ hfirst, ih⟩

/-- A node, and what it becomes. -/
structure Becomes (inv : Node → Prop) (rel : Node → Node → Prop) (o o' : Node) : Prop where
  invariant : inv o'
  related : rel o o'

/-- A law of reductions that settle, node by node. -/
structure Law (w : Reducer σ) (inv : Node → Prop) (rel : Node → Node → Prop)
    (done : Node → Prop) : Prop where
  refl : ∀ n, rel n n
  trans : ∀ {n m k}, rel n m → rel m k → rel n k
  /-- A replacement satisfies the invariant and is related to what it replaces. -/
  step : ∀ {n m : Node} {s s' : σ}, inv n → w.reduct? n s = (.ok (some m), s') → Becomes inv rel n m
  /-- The invariant passes to the operands. -/
  operand : ∀ {form : Form} {operands : List Node}, inv ⟨form, operands⟩ → ∀ o ∈ operands, inv o
  /-- Operands may become what they are related to. -/
  congr : ∀ {form : Form} {operands operands' : List Node}, inv ⟨form, operands⟩ →
    List.Forall₂ (Becomes inv rel) operands operands' →
    Becomes inv rel ⟨form, operands⟩ ⟨form, operands'⟩
  /-- A node without replacement is done, whatever its operands become. -/
  finish : ∀ {form : Form} {operands operands' : List Node} {s s' : σ}, inv ⟨form, operands⟩ →
    w.reduct? ⟨form, operands⟩ s = (.ok none, s') →
    List.Forall₂ (Becomes inv rel) operands operands' → done ⟨form, operands'⟩

/-- What a tree becomes when its reduction settles. -/
structure Settles (inv : Node → Prop) (rel : Node → Node → Prop) (done : Node → Prop)
    (n n' : Node) : Prop where
  becomes : Becomes inv rel n n'
  nodes : ∀ m ∈ n'.selfAndDescendants, done m

namespace Law

variable {w : Reducer σ} (hw : w.Law inv rel done)
include hw

theorem settle (left : Nat) {changed : Bool} {n : Node} {s : σ} (hn : inv n) {b : Bool}
    (hsettled : (w.settle left changed n s).verdict = .settled b) :
    Becomes inv rel n (w.settle left changed n s).result
      ∧ ∃ s₀, w.reduct? (w.settle left changed n s).result s₀
        = (.ok none, (w.settle left changed n s).state) := by
  fun_induction Reducer.settle w left changed n s with
  | case1 | case3 | case4 => cases hsettled
  | case2 _ _ n s _ hstep => exact ⟨⟨hn, hw.refl n⟩, s, hstep⟩
  | case5 _ _ _ _ _ hstep _ _ _ ih =>
    -- A valid replacement takes the place, and is settled in turn.
    have hm := hw.step hn hstep
    obtain ⟨hrest, hlast⟩ := ih hm.invariant hsettled
    exact ⟨⟨hrest.invariant, hw.trans hm.related hrest.related⟩, hlast⟩

omit hw in
theorem reduceEach {f : Node → σ → Progress σ Node}
    (hf : ∀ {n : Node} {s : σ}, inv n → ∀ {b : Bool}, (f n s).verdict = .settled b →
      Settles inv rel done n (f n s).result) :
    ∀ {operands : List Node} {s : σ}, (∀ o ∈ operands, inv o) → ∀ {b : Bool},
      (Reducer.reduceEach f operands s).verdict = .settled b →
      List.Forall₂ (Settles inv rel done) operands (Reducer.reduceEach f operands s).result
  | [], _, _, _, _ => .nil
  | n :: rest, s, hall, b, hsettled => by
    obtain ⟨hn, hrest⟩ := List.forall_mem_cons.mp hall
    simp only [Reducer.reduceEach] at hsettled ⊢
    cases hfirst : (f n s).verdict with
    | settled c =>
      rw [hfirst] at hsettled
      dsimp only at hsettled ⊢
      cases hothers : (Reducer.reduceEach f rest (f n s).state).verdict with
      | settled d => exact .cons (hf hn hfirst) (reduceEach hf hrest hothers)
      | failed _ | unfinished => rw [hothers] at hsettled; cases hsettled
    | failed _ | unfinished => rw [hfirst] at hsettled; cases hsettled

/-- A tree, from the root down. -/
theorem reduceTree (limit : Nat) : ∀ (budget : Nat) {n : Node} {s : σ}, inv n → ∀ {b : Bool},
    (w.reduceTree limit budget n s).verdict = .settled b →
    Settles inv rel done n (w.reduceTree limit budget n s).result := by
  intro budget
  induction budget with
  | zero => intro n s _ b hsettled; cases hsettled
  | succ budget ih =>
    intro n s hn b hsettled
    simp only [Reducer.reduceTree] at hsettled ⊢
    cases hroot : (w.settle limit false n s).verdict with
    | failed _ | unfinished =>
      rw [hroot] at hsettled; exact absurd (hroot.symm.trans hsettled) (by simp)
    | settled c =>
      rw [hroot] at hsettled
      obtain ⟨hplace, s₀, hlast⟩ := hw.settle limit hn hroot
      dsimp only at hsettled ⊢
      generalize (w.settle limit false n s).state = s₁ at hlast hsettled ⊢
      generalize (w.settle limit false n s).result = root at hplace hlast hsettled ⊢
      obtain ⟨form, operands⟩ := root
      -- The root has settled, so all of its operands have.
      obtain ⟨d, hd⟩ : ∃ d, (Reducer.reduceEach (w.reduceTree limit budget) operands s₁).verdict
          = .settled d := by
        cases hoperands : (Reducer.reduceEach (w.reduceTree limit budget) operands s₁).verdict with
        | settled d => exact ⟨d, rfl⟩
        | failed _ | unfinished => rw [hoperands] at hsettled; cases hsettled
      -- They become what they are related to, under the root that has settled before them.
      have hoperands := reduceEach ih (hw.operand hplace.invariant) hd
      have hbecome := hoperands.imp fun _ _ ho => ho.becomes
      have hnode := hw.congr hplace.invariant hbecome
      refine ⟨⟨hnode.invariant, hw.trans hplace.related hnode.related⟩, ?_⟩
      rw [Node.selfAndDescendants_mk]
      refine List.forall_mem_cons.mpr ⟨hw.finish hplace.invariant hlast hbecome, fun m hm => ?_⟩
      obtain ⟨o', ho', hm⟩ := List.mem_flatMap.mp hm
      exact forall_mem_right (fun _ _ ho => ho.nodes) hoperands o' ho' m hm

/-- A run that succeeds. -/
theorem run {limit : Nat} {n n' : Node} {s s' : σ} {changed : Bool} (hn : inv n)
    (hrun : w.run limit n s = (.ok changed, n', s')) : Settles inv rel done n n' := by
  have htree := fun {b : Bool} => hw.reduceTree limit (levels n) hn (s := s) (b := b)
  unfold Reducer.run at hrun
  dsimp only at hrun
  cases hverdict : (w.reduceTree limit (levels n) n s).verdict with
  | settled b =>
    rw [hverdict] at hrun
    cases hrun
    exact htree hverdict
  | failed _ | unfinished => rw [hverdict] at hrun; cases hrun

end Law

end ScriptLowering.Canonical.Reducer
