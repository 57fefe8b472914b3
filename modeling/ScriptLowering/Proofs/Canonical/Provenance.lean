import ScriptLowering.Proofs.Canonical.Walk
import ScriptLowering.Proofs.Script.Tree

/-!
# Where the nodes of a reduced tree come from

A reduction is a sequence of replacements, each at one place of the tree (`Rewrites`). Whether it
settles or not, and within every budget, its result is reached by such a sequence
(`leadsTo_reduceTree`), and a relation that every replacement keeps to holds between a tree and
what becomes of it (`Follows.run`). A node of the result was there before, or it came with a
replacement (`Brings`), and only its operands have been reduced since (`exists_origin`).
-/

namespace ScriptLowering

open Script

theorem Script.Node.mem_selfAndDescendants_trans {x m : Node} (hx : x ∈ m.selfAndDescendants) :
    ∀ {n : Node}, m ∈ n.selfAndDescendants → x ∈ n.selfAndDescendants
  | ⟨form, operands⟩, hm => by
    rw [selfAndDescendants_mk] at hm
    rcases List.mem_cons.mp hm with rfl | hbelow
    · exact hx
    · obtain ⟨o, ho, hm⟩ := List.mem_flatMap.mp hbelow
      rw [selfAndDescendants_mk]
      refine List.mem_cons_of_mem _ (List.mem_flatMap.mpr ⟨o, ho, ?_⟩)
      exact mem_selfAndDescendants_trans hx hm

theorem Script.Node.self_mem_selfAndDescendants (n : Node) : n ∈ n.selfAndDescendants := by
  obtain ⟨form, operands⟩ := n
  rw [selfAndDescendants_mk]
  exact List.mem_cons_self

theorem Script.Node.mem_selfAndDescendants_of_operand {x o : Node} {form : Form}
    {operands : List Node} (hx : x ∈ o.selfAndDescendants) (ho : o ∈ operands) :
    x ∈ selfAndDescendants ⟨form, operands⟩ := by
  rw [selfAndDescendants_mk]
  exact List.mem_cons_of_mem _ (List.mem_flatMap.mpr ⟨o, ho, hx⟩)

namespace Canonical.Reducer

open Relation

variable {σ : Type} {w : Reducer σ} {limit : Nat}

/-! ### Replacements one by one -/

/-- One replacement, at one place of a tree. -/
inductive Rewrites (w : Reducer σ) : Node → Node → Prop where
  | root {n m : Node} {s s' : σ} : w.reduct? n s = (.ok (some m), s') → Rewrites w n m
  | operand {form : Form} {before later : List Node} {o o' : Node} : Rewrites w o o' →
    Rewrites w ⟨form, before ++ o :: later⟩ ⟨form, before ++ o' :: later⟩

/-- Replacements one after another lead from one tree to another. -/
abbrev LeadsTo (w : Reducer σ) : Node → Node → Prop :=
  ReflTransGen w.Rewrites

/-- Operands may be replaced one by one. -/
theorem LeadsTo.operands {form : Form} {operands operands' : List Node}
    (h : List.Forall₂ w.LeadsTo operands operands') :
    ∀ before : List Node, w.LeadsTo ⟨form, before ++ operands⟩ ⟨form, before ++ operands'⟩ := by
  induction h with
  | nil => exact fun _ => .refl
  | @cons o o' rest rest' hfirst _ ih =>
    intro before
    have hplace : w.LeadsTo ⟨form, before ++ o :: rest⟩ ⟨form, before ++ o' :: rest⟩ :=
      hfirst.lift (fun n : Node => (⟨form, before ++ n :: rest⟩ : Node)) fun _ _ => .operand
    have hothers := ih (before ++ [o'])
    rw [List.append_assoc, List.append_assoc] at hothers
    exact hplace.trans hothers

/-! ### Walks -/

theorem leadsTo_settle (left : Nat) (changed : Bool) (n : Node) (s : σ) :
    w.LeadsTo n (w.settle left changed n s).result := by
  fun_induction settle w left changed n s with
  | case1 | case2 | case3 | case4 => exact .refl
  | case5 _ _ _ _ _ hstep _ _ _ ih => exact .head (.root hstep) ih

theorem leadsTo_reduceEach {f : Node → σ → Progress σ Node}
    (hf : ∀ n s, w.LeadsTo n (f n s).result) : ∀ (operands : List Node) (s : σ),
    List.Forall₂ w.LeadsTo operands (reduceEach f operands s).result
  | [], _ => .nil
  | n :: rest, s => by
    simp only [reduceEach]
    cases (f n s).verdict with
    | settled c => exact .cons (hf n s) (leadsTo_reduceEach hf rest _)
    | failed _ | unfinished => exact .cons (hf n s) (List.forall₂_refl rest)

theorem leadsTo_reduceTree (limit : Nat) : ∀ (budget : Nat) (n : Node) (s : σ),
    w.LeadsTo n (w.reduceTree limit budget n s).result := by
  intro budget
  induction budget with
  | zero => exact fun _ _ => .refl
  | succ budget ih =>
    intro n s
    have hplace := leadsTo_settle (w := w) limit false n s
    by_cases hroot : ∃ c, (w.settle limit false n s).verdict = .settled c
    · obtain ⟨c, hc⟩ := hroot
      rw [reduceTree_of_settled hc]
      dsimp only
      generalize (w.settle limit false n s).result = root at hplace ⊢
      obtain ⟨form, operands⟩ := root
      exact hplace.trans (LeadsTo.operands (leadsTo_reduceEach ih operands _) [])
    · rw [not_exists] at hroot
      rw [reduceTree_of_not_settled hroot]
      exact hplace

theorem leadsTo_run (limit : Nat) (n : Node) (s : σ) : w.LeadsTo n (w.run limit n s).2.1 := by
  have htree := leadsTo_reduceTree (w := w) limit (levels n) n s
  unfold run
  dsimp only
  split <;> exact htree

/-! ### Relations that a reduction follows -/

/-- A relation that a reducer follows: what becomes of a place is related to the place, and
operands may become what they are related to. -/
structure Follows (w : Reducer σ) (rel : Node → Node → Prop) : Prop where
  refl : ∀ n, rel n n
  trans : ∀ {n m k}, rel n m → rel m k → rel n k
  congr : ∀ {form : Form} {ns ms : List Node}, List.Forall₂ rel ns ms → rel ⟨form, ns⟩ ⟨form, ms⟩
  step : ∀ {n m : Node} {s : σ}, (w.reduct? n s).1 = .ok (some m) → rel n m

namespace Follows

variable {rel : Node → Node → Prop} (hw : w.Follows rel)
include hw

theorem rewrites {n m : Node} (h : w.Rewrites n m) : rel n m := by
  induction h with
  | root hstep => exact hw.step (congrArg Prod.fst hstep)
  | operand _ ih =>
    refine hw.congr (List.rel_append ?_ (.cons ih ?_)) <;>
      exact List.forall₂_same.mpr fun _ _ => hw.refl _

theorem run (limit : Nat) (n : Node) (s : σ) : rel n (w.run limit n s).2.1 := by
  have hleads := leadsTo_run (w := w) limit n s
  generalize (w.run limit n s).2.1 = m at hleads ⊢
  induction hleads with
  | refl => exact hw.refl n
  | tail _ hstep ih => exact hw.trans ih (hw.rewrites hstep)

end Follows

/-! ### Origins -/

/-- A node that comes with a replacement: it is part of what is put there, and not of what was
there. -/
def Brings (w : Reducer σ) (replaced x : Node) : Prop :=
  ∃ m s s', w.reduct? replaced s = (.ok (some m), s')
    ∧ x ∈ m.selfAndDescendants ∧ x ∉ replaced.selfAndDescendants

/-- A node that a tree contains at some time while it is reduced. -/
def ComesToContain (w : Reducer σ) (n x : Node) : Prop :=
  ∃ n', w.LeadsTo n n' ∧ x ∈ n'.selfAndDescendants

/-- A node that becomes another when its operands are reduced. -/
def DevelopsInto (w : Reducer σ) (x x' : Node) : Prop :=
  x.form = x'.form ∧ List.Forall₂ w.LeadsTo x.operands x'.operands

theorem DevelopsInto.refl (x : Node) : w.DevelopsInto x x :=
  ⟨rfl, List.forall₂_refl _⟩

theorem LeadsTo.forall₂_trans {a b : List Node} (hab : List.Forall₂ w.LeadsTo a b) :
    ∀ {c : List Node}, List.Forall₂ w.LeadsTo b c → List.Forall₂ w.LeadsTo a c := by
  induction hab with
  | nil => exact fun hbc => hbc
  | cons hfirst _ ih =>
    intro c hbc
    cases hbc with
    | cons hsecond hrest => exact .cons (hfirst.trans hsecond) (ih hrest)

theorem DevelopsInto.trans {x y z : Node} (hxy : w.DevelopsInto x y) (hyz : w.DevelopsInto y z) :
    w.DevelopsInto x z :=
  ⟨hxy.1.trans hyz.1, LeadsTo.forall₂_trans hxy.2 hyz.2⟩

theorem Rewrites.origin {n n' x' : Node} (h : w.Rewrites n n') :
    x' ∈ n'.selfAndDescendants →
      (∃ x ∈ n.selfAndDescendants, w.DevelopsInto x x')
        ∨ ∃ p ∈ n.selfAndDescendants, w.Brings p x' := by
  induction h with
  | @root n m s s' hstep =>
    intro hx'
    by_cases hbefore : x' ∈ n.selfAndDescendants
    · exact .inl ⟨x', hbefore, .refl x'⟩
    · exact .inr ⟨n, n.self_mem_selfAndDescendants, m, s, s', hstep, hx', hbefore⟩
  | @operand form before later o o' hrewrites ih =>
    have hmember : o ∈ before ++ o :: later := List.mem_append_right _ List.mem_cons_self
    intro hx'
    rw [Node.selfAndDescendants_mk] at hx'
    rcases List.mem_cons.mp hx' with rfl | hbelow
    · -- The node above the place keeps its form.
      refine .inl ⟨⟨form, before ++ o :: later⟩, Node.self_mem_selfAndDescendants _, rfl, ?_⟩
      exact List.rel_append (List.forall₂_refl before)
        (.cons (.single hrewrites) (List.forall₂_refl later))
    · -- Of the operands below it, only the replaced one is new.
      obtain ⟨child, hchild, hchild'⟩ := List.mem_flatMap.mp hbelow
      have hcases : child = o' ∨ child ∈ before ++ o :: later := by
        rw [List.mem_append, List.mem_cons] at hchild
        rw [List.mem_append, List.mem_cons]
        tauto
      rcases hcases with rfl | hother
      · rcases ih hchild' with ⟨x, hx, hbecomes⟩ | ⟨p, hp, hbrings⟩
        · exact .inl ⟨x, Node.mem_selfAndDescendants_of_operand hx hmember, hbecomes⟩
        · exact .inr ⟨p, Node.mem_selfAndDescendants_of_operand hp hmember, hbrings⟩
      · exact .inl ⟨x', Node.mem_selfAndDescendants_of_operand hchild' hother, .refl x'⟩

theorem exists_origin {n n' : Node} (h : w.LeadsTo n n') :
    ∀ x' ∈ n'.selfAndDescendants, ∃ x, w.DevelopsInto x x'
      ∧ (x ∈ n.selfAndDescendants ∨ ∃ p, w.ComesToContain n p ∧ w.Brings p x) := by
  induction h with
  | refl => exact fun x' hx' => ⟨x', .refl x', .inl hx'⟩
  | @tail k n' hleads hrewrites ih =>
    intro x' hx'
    rcases hrewrites.origin hx' with ⟨x, hx, hbecomes⟩ | ⟨p, hp, hbrings⟩
    · obtain ⟨y, hy, horigin⟩ := ih x hx
      exact ⟨y, hy.trans hbecomes, horigin⟩
    · exact ⟨x', .refl x', .inr ⟨p, ⟨k, hleads, hp⟩, hbrings⟩⟩

end Canonical.Reducer

end ScriptLowering
