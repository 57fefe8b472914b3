import ScriptLowering.Canonical.Reduction
import ScriptLowering.Proofs.Lowering.Scope
import ScriptLowering.Proofs.Script.Formed

/-!
# Reduction keeps trees formed

A reducer whose replacements are formed and stand for what they replace (`Reducer.Preserves`) keeps
whole trees formed: a place is replaced step by step (`settle_kept`), the operands follow from left
to right (`reduceEach_kept`), and the node above, of which only operands were replaced, stays
formed. That holds however the reduction ends, also when it fails or stops early (`run_kept`).
-/

namespace ScriptLowering.Canonical.Reducer

open Script Lowering

variable {σ : Type} {derived : Prop} {scopeOf : σ → Scope} {around : List Enclosure}

/-- A reducer whose replacements are formed and stand for what they replace. Its state holds the
variables of the method, and replacements may add to them. -/
def Preserves (w : Reducer σ) (derived : Prop) (scopeOf : σ → Scope) : Prop :=
  ∀ {n : Node} {s : σ} {around : List Enclosure},
    n.IsFormed derived (scopeOf s).allVariables around →
    (scopeOf s).Grows (scopeOf (w.reduct? n s).2)
      ∧ ∀ r, (w.reduct? n s).1 = .ok (some r) →
        r.IsFormed derived (scopeOf (w.reduct? n s).2).allVariables around
          ∧ r.StandsFor derived n

/-- What is kept while a tree is reduced: it is formed, and stands for the tree before. -/
structure Kept (derived : Prop) (scopeOf : σ → Scope) (around : List Enclosure) (n : Node) (s : σ)
    (r : Node) (s' : σ) : Prop where
  grows : (scopeOf s).Grows (scopeOf s')
  formed : r.IsFormed derived (scopeOf s').allVariables around
  stands : r.StandsFor derived n

theorem Kept.same {n : Node} {s s' : σ} (hn : n.IsFormed derived (scopeOf s).allVariables around)
    (hgrows : (scopeOf s).Grows (scopeOf s')) : Kept derived scopeOf around n s n s' :=
  ⟨hgrows, hn.mono hgrows.subset, .refl n⟩

theorem Kept.trans {n r r' : Node} {s s' s'' : σ} (h : Kept derived scopeOf around n s r s')
    (h' : Kept derived scopeOf around r s' r' s'') : Kept derived scopeOf around n s r' s'' :=
  ⟨h.grows.trans h'.grows, h'.formed, h'.stands.trans h.stands⟩

variable {w : Reducer σ}

theorem settle_kept (hw : w.Preserves derived scopeOf) (left : Nat) (changed : Bool) {n : Node}
    {s : σ} (hn : n.IsFormed derived (scopeOf s).allVariables around) :
    Kept derived scopeOf around n s (w.settle left changed n s).result
      (w.settle left changed n s).state := by
  obtain ⟨hgrows, hreduct⟩ := hw hn
  fun_induction settle w left changed n s with
  | case1 _ _ _ _ _ _ hstep | case2 _ _ _ _ _ hstep | case3 _ _ _ _ _ hstep
  | case4 _ _ _ _ _ hstep =>
    rw [hstep] at hgrows
    exact Kept.same hn hgrows
  | case5 _ _ _ r _ hstep _ _ _ ih =>
    rw [hstep] at hgrows hreduct
    obtain ⟨hformed, hstands⟩ := hreduct r rfl
    obtain ⟨hgrows', hreduct'⟩ := hw hformed
    exact Kept.trans ⟨hgrows, hformed, hstands⟩ (ih hformed hgrows' hreduct')

theorem reduceEach_kept {f : Node → σ → Progress σ Node}
    (hf : ∀ {n : Node} {s : σ} {around : List Enclosure},
      n.IsFormed derived (scopeOf s).allVariables around →
      Kept derived scopeOf around n s (f n s).result (f n s).state) {form : Form} :
    ∀ {ns : List Node} {slot : Nat} {s : σ},
      Node.HoldsFrom (Node.Formed derived (scopeOf s).allVariables) around form slot ns →
      (scopeOf s).Grows (scopeOf (reduceEach f ns s).state)
        ∧ Node.HoldsFrom (Node.Formed derived (scopeOf (reduceEach f ns s).state).allVariables)
            around form slot (reduceEach f ns s).result
        ∧ List.Forall₂ (Node.StandsFor derived) (reduceEach f ns s).result ns
  | [], _, _, _ => ⟨.refl _, by simp [reduceEach], .nil⟩
  | n :: rest, slot, s, h => by
    obtain ⟨hn, hrest⟩ := Node.holdsFrom_cons.mp h
    have hfirst := hf hn
    have hlater := hrest.mono fun _ _ hm => Node.Formed.mono hm hfirst.grows.subset
    simp only [reduceEach]
    split
    · -- The first settled: the others follow.
      obtain ⟨hgrows, hformed, hstands⟩ := reduceEach_kept hf hlater
      refine ⟨hfirst.grows.trans hgrows, ?_, .cons hfirst.stands hstands⟩
      exact Node.holdsFrom_cons.mpr ⟨hfirst.formed.mono hgrows.subset, hformed⟩
    · -- The first did not settle: the others stay.
      refine ⟨hfirst.grows, Node.holdsFrom_cons.mpr ⟨hfirst.formed, hlater⟩, ?_⟩
      exact .cons hfirst.stands (List.forall₂_same.mpr fun _ _ => .refl _)

theorem reduceTree_kept (hw : w.Preserves derived scopeOf) (limit : Nat) :
    ∀ (budget : Nat) {n : Node} {s : σ} {around : List Enclosure},
      n.IsFormed derived (scopeOf s).allVariables around →
      Kept derived scopeOf around n s (w.reduceTree limit budget n s).result
        (w.reduceTree limit budget n s).state := by
  intro budget
  induction budget with
  | zero => exact fun hn => Kept.same hn (.refl _)
  | succ budget ih =>
    intro n s around hn
    have hroot := settle_kept hw limit false hn
    simp only [reduceTree]
    split
    · refine hroot.trans ?_
      generalize (w.settle limit false n s).result = root at hroot ⊢
      obtain ⟨form, operands⟩ := root
      obtain ⟨hnode, hoperands⟩ := Node.holdsIn_mk.mp hroot.formed
      obtain ⟨hgrows, hformed, hstands⟩ := reduceEach_kept ih hoperands
      refine ⟨hgrows, Node.holdsIn_mk.mpr ⟨?_, hformed⟩, .congr form hstands⟩
      exact (hnode.mono hgrows.subset).replace hstands
    · exact hroot

theorem run_kept (hw : w.Preserves derived scopeOf) {limit : Nat} {n : Node} {s : σ}
    (hn : n.IsFormed derived (scopeOf s).allVariables around) :
    Kept derived scopeOf around n s (w.run limit n s).2.1 (w.run limit n s).2.2 := by
  have hkept := reduceTree_kept hw limit (levels n) hn
  simp only [run]
  split <;> exact hkept

end ScriptLowering.Canonical.Reducer
