import ScriptLowering.Proofs.Script.Tree

/-!
# Counting nodes

A tree has side effects if one of its nodes has an effect (`hasSideEffects_iff`). How often a node
occurs in some trees is counted by `Node.timesIn`. A form that is not the counted one only brings
what is below it, so that rebuilding a tree from the same operands under forms without effects keeps
the counts of all effects.
-/

namespace ScriptLowering.Script.Node

variable {m n : Node}

/-! ### Nodes in trees -/

variable {operands : List Node}

theorem selfAndDescendants_sublist_of_operand {o : Node} (ho : o ∈ operands) :
    o.selfAndDescendants.Sublist (operands.flatMap selfAndDescendants) :=
  List.sublist_flatten_of_mem (List.mem_map_of_mem ho)

theorem selfAndDescendants_sublist :
    ∀ {n : Node}, m ∈ n.selfAndDescendants → m.selfAndDescendants.Sublist n.selfAndDescendants
  | ⟨form, operands⟩, hm => by
    rw [selfAndDescendants_mk] at hm ⊢
    rcases List.mem_cons.mp hm with rfl | hbelow
    · rw [selfAndDescendants_mk]
    · obtain ⟨o, ho, hm⟩ := List.mem_flatMap.mp hbelow
      have hforest := selfAndDescendants_sublist_of_operand ho
      exact ((selfAndDescendants_sublist hm).trans hforest).cons _

/-- Operands are smaller trees. -/
theorem length_selfAndDescendants_lt {o : Node} (ho : o ∈ n.operands) :
    o.selfAndDescendants.length < n.selfAndDescendants.length := by
  obtain ⟨form, operands⟩ := n
  rw [selfAndDescendants_mk, List.length_cons]
  exact Nat.lt_succ_of_le (selfAndDescendants_sublist_of_operand ho).length_le

variable {ns : List Node}

theorem anySideEffects_iff : anySideEffects ns = true ↔ ∃ n ∈ ns, n.hasSideEffects = true := by
  induction ns with
  | nil => simp [anySideEffects]
  | cons n ns ih => simp [anySideEffects, ih]

theorem hasSideEffects_iff :
    n.hasSideEffects = true ↔ ∃ m ∈ n.selfAndDescendants, m.form.hasEffect = true := by
  induction n using Node.induction with
  | step form operands ih =>
    rw [hasSideEffects, Bool.or_eq_true, anySideEffects_iff, selfAndDescendants_mk]
    simp only [List.exists_mem_cons_iff, List.mem_flatMap]
    refine or_congr_right ⟨?_, ?_⟩
    · rintro ⟨o, ho, heffect⟩
      obtain ⟨m, hm, heffect⟩ := (ih o ho).mp heffect
      exact ⟨m, ⟨o, ho, hm⟩, heffect⟩
    · rintro ⟨m, ⟨o, ho, hm⟩, heffect⟩
      exact ⟨o, ho, (ih o ho).mpr ⟨m, hm, heffect⟩⟩

/-! ### Counting -/

open scoped Classical in
/-- How often a node occurs in some trees. -/
noncomputable def timesIn (m : Node) (ns : List Node) : Nat :=
  (ns.flatMap selfAndDescendants).countP fun k => decide (k = m)

theorem timesIn_nil : m.timesIn [] = 0 :=
  rfl

theorem timesIn_append (ns ns' : List Node) :
    m.timesIn (ns ++ ns') = m.timesIn ns + m.timesIn ns' := by
  rw [timesIn, List.flatMap_append, List.countP_append]
  rfl

theorem timesIn_cons (n : Node) (ns : List Node) :
    m.timesIn (n :: ns) = m.timesIn [n] + m.timesIn ns :=
  timesIn_append [n] ns

theorem timesIn_mk {form : Form} (hne : ⟨form, operands⟩ ≠ m) :
    m.timesIn [⟨form, operands⟩] = m.timesIn operands := by
  rw [timesIn, List.flatMap_singleton, selfAndDescendants_mk, List.countP_cons_of_neg]
  · rfl
  · simpa using hne

theorem timesIn_pos_iff : 0 < m.timesIn [n] ↔ m ∈ n.selfAndDescendants := by
  simp [timesIn, List.countP_pos_iff]

theorem timesIn_eq_zero_iff : m.timesIn ns = 0 ↔ ∀ n ∈ ns, m ∉ n.selfAndDescendants := by
  simp [timesIn, List.countP_eq_zero]
  grind

theorem timesIn_pos_of_mem (hn : n ∈ ns) (hm : m ∈ n.selfAndDescendants) : 0 < m.timesIn ns :=
  Nat.pos_of_ne_zero fun hzero => timesIn_eq_zero_iff.mp hzero n hn hm

/-- What is below a node is another node. -/
theorem timesIn_of_operands (hm : 0 < m.timesIn n.operands) :
    m.timesIn [n] = m.timesIn n.operands := by
  obtain ⟨form, operands⟩ := n
  refine timesIn_mk ?_
  rintro rfl
  refine absurd (timesIn_eq_zero_iff.mpr fun o ho hmem => ?_) (Nat.ne_of_gt hm)
  have hbelow := length_selfAndDescendants_lt (n := ⟨form, operands⟩) ho
  have habove := (selfAndDescendants_sublist hmem).length_le
  omega

section

variable (heffect : m.form.hasEffect = true)
include heffect

/-- A form without an effect is not counted. -/
theorem timesIn_of_not_hasEffect {form : Form} (hform : form.hasEffect = false) :
    m.timesIn [⟨form, operands⟩] = m.timesIn operands := by
  refine timesIn_mk ?_
  rintro rfl
  rw [hform] at heffect
  cases heffect

theorem timesIn_of_forall_not_hasSideEffects (hns : ∀ n ∈ ns, n.hasSideEffects = false) :
    m.timesIn ns = 0 := by
  refine timesIn_eq_zero_iff.mpr fun n hn hmem => ?_
  have heffects := hasSideEffects_iff.mpr ⟨m, hmem, heffect⟩
  rw [hns n hn] at heffects
  cases heffects

theorem timesIn_of_not_hasSideEffects (hn : n.hasSideEffects = false) : m.timesIn [n] = 0 :=
  timesIn_of_forall_not_hasSideEffects heffect (List.forall_mem_singleton.mpr hn)

theorem timesIn_ofVariable (v : Variable) : m.timesIn [.ofVariable v] = 0 :=
  timesIn_of_not_hasSideEffects heffect rfl

/-- A sequence counts as its parts. -/
theorem timesIn_comma (ns : List Node) : m.timesIn [.comma ns] = m.timesIn ns := by
  unfold comma
  split
  · rfl
  · exact timesIn_of_not_hasEffect heffect rfl

end

end ScriptLowering.Script.Node
