import ScriptLowering.Proofs.Script.Tree

/-!
# The order of descendants

A node of a tree is found by its path, the slots that lead to it from the root (`Node.at?`).
Pre-order is the lexical order of paths: a path stands before its continuations, and all of these
before what is further to the right.
-/

namespace ScriptLowering.Script.Node

/-! ### Paths -/

/-- The node at a path of slots. -/
def at? (n : Node) : List Nat → Option Node
  | [] => some n
  | slot :: path => n.operands[slot]?.bind fun o => o.at? path

variable {form : Form} {ns : List Node} {path : List Nat}

theorem at?_slot (before after : List Node) (o : Node) (path : List Nat) :
    at? ⟨form, before ++ o :: after⟩ (before.length :: path) = o.at? path := by
  simp [at?]

/-- The paths of some operands from a slot on: those of each operand, behind its slot. -/
def slotPaths (paths : Node → List (List Nat)) : Nat → List Node → List (List Nat)
  | _, [] => []
  | slot, n :: rest => (paths n).map (slot :: ·) ++ slotPaths paths (slot + 1) rest

variable {paths : Node → List (List Nat)}

theorem mem_slotPaths {first : Nat} :
    path ∈ slotPaths paths first ns
      ↔ ∃ i o rest, ns[i]? = some o ∧ rest ∈ paths o ∧ path = (first + i) :: rest := by
  induction ns generalizing first with
  | nil => simp [slotPaths]
  | cons n ns ih =>
    rw [slotPaths, List.mem_append, List.mem_map, ih]
    constructor
    · rintro (⟨rest, hrest, rfl⟩ | ⟨i, o, rest, ho, hrest, rfl⟩)
      · exact ⟨0, n, rest, rfl, hrest, rfl⟩
      · exact ⟨i + 1, o, rest, ho, hrest, by rw [Nat.add_assoc, Nat.add_comm 1 i]⟩
    · rintro ⟨i, o, rest, ho, hrest, rfl⟩
      cases i with
      | zero =>
        cases ho
        exact .inl ⟨rest, hrest, rfl⟩
      | succ i => exact .inr ⟨i, o, rest, ho, hrest, by rw [Nat.add_assoc, Nat.add_comm 1 i]⟩

theorem pairwise_slotPaths (hns : ∀ n ∈ ns, (paths n).Pairwise (· < ·)) (first : Nat) :
    (slotPaths paths first ns).Pairwise (· < ·) := by
  induction ns generalizing first with
  | nil => exact .nil
  | cons n ns ih =>
    obtain ⟨hn, hrest⟩ := List.forall_mem_cons.mp hns
    rw [slotPaths, List.pairwise_append]
    refine ⟨?_, ih hrest (first + 1), ?_⟩
    · rw [List.pairwise_map]
      exact hn.imp fun hlt => List.cons_lt_cons_iff.mpr (.inr ⟨rfl, hlt⟩)
    · intro a ha b hb
      obtain ⟨path, -, rfl⟩ := List.mem_map.mp ha
      obtain ⟨i, _, path', -, -, rfl⟩ := mem_slotPaths.mp hb
      exact List.cons_lt_cons_iff.mpr (.inl (by omega))

theorem map_at?_slotPaths (before : List Node) :
    (slotPaths paths before.length ns).map (at? ⟨form, before ++ ns⟩)
      = ns.flatMap fun o => (paths o).map o.at? := by
  induction ns generalizing before with
  | nil => rfl
  | cons n ns ih =>
    have hrest := ih (before ++ [n])
    rw [List.length_append, List.length_singleton, List.append_assoc, List.singleton_append]
      at hrest
    rw [slotPaths, List.map_append, hrest, List.flatMap_cons, List.map_map]
    refine congrArg (· ++ _) (List.map_congr_left fun path _ => ?_)
    exact at?_slot before ns n path

/-! ### All paths -/

/-- The paths of all nodes of a tree, in order. -/
structure Explores (n : Node) (paths : List (List Nat)) : Prop where
  ordered : paths.Pairwise (· < ·)
  complete : ∀ path, path ∈ paths ↔ (n.at? path).isSome = true
  nodes : paths.map n.at? = n.selfAndDescendants.map some

theorem explores_below (form : Form) {operands : List Node}
    (h : ∀ o ∈ operands, o.Explores (paths o)) :
    (slotPaths paths 0 operands).Pairwise (· < ·)
      ∧ (∀ path, path ∈ slotPaths paths 0 operands
        ↔ path ≠ [] ∧ (at? ⟨form, operands⟩ path).isSome = true)
      ∧ (slotPaths paths 0 operands).map (at? ⟨form, operands⟩)
        = (collectDescendants ⟨form, operands⟩).map some := by
  refine ⟨pairwise_slotPaths (fun o ho => (h o ho).ordered) 0, fun path => ?_, ?_⟩
  · rw [mem_slotPaths]
    constructor
    · rintro ⟨i, o, rest, ho, hrest, rfl⟩
      have hsome := ((h o (List.mem_of_getElem? ho)).complete rest).mp hrest
      refine ⟨List.cons_ne_nil _ _, ?_⟩
      rwa [Nat.zero_add, at?, ho, Option.bind_some]
    · rintro ⟨hpath, hsome⟩
      cases path with
      | nil => exact absurd rfl hpath
      | cons slot rest =>
        obtain ⟨m, hm⟩ := Option.isSome_iff_exists.mp hsome
        obtain ⟨o, ho, hrest⟩ := Option.bind_eq_some_iff.mp hm
        have hmem := ((h o (List.mem_of_getElem? ho)).complete rest).mpr (by rw [hrest]; rfl)
        exact ⟨slot, o, rest, ho, hmem, by rw [Nat.zero_add]⟩
  · have hnodes : (slotPaths paths 0 operands).map (at? ⟨form, operands⟩) = _ :=
      map_at?_slotPaths []
    rw [hnodes, collectDescendants, collectForest_eq, List.map_flatMap]
    exact List.flatMap_congr fun o ho => (h o ho).nodes

theorem exists_explores (n : Node) : ∃ paths, n.Explores paths := by
  induction n using Node.induction with
  | step form operands ih =>
    choose! paths hpaths using ih
    obtain ⟨hordered, hcomplete, hnodes⟩ := explores_below form hpaths
    refine ⟨[] :: slotPaths paths 0 operands, ?_, fun path => ?_, ?_⟩
    · refine List.pairwise_cons.mpr ⟨fun path hpath => ?_, hordered⟩
      cases path with
      | nil => exact absurd rfl ((hcomplete []).mp hpath).1
      | cons slot path => exact List.nil_lt_cons slot path
    · rw [List.mem_cons, hcomplete]
      by_cases hpath : path = []
      · subst hpath
        simp [at?]
      · simp [hpath]
    · rw [List.map_cons, hnodes, selfAndDescendants, List.map_cons, at?]

/-! ### Walks -/

theorem Walk.toList_eq (w : Walk) :
    w.toList = w.stack.toList.reverse.flatMap selfAndDescendants := by
  fun_induction Walk.toList w with
  | case1 w hnone =>
    have hempty : w.stack = #[] := by simpa [next?] using hnone
    rw [hempty]
    rfl
  | case2 w n rest hnext ih =>
    obtain ⟨others, hstack, hrest⟩ := next?_eq_some_iff.mp hnext
    obtain ⟨form, operands⟩ := n
    rw [ih, hstack, hrest, Array.toList_appendList, Array.toList_push, List.reverse_append,
      List.reverse_append, List.reverse_reverse, List.reverse_singleton, List.singleton_append,
      List.flatMap_append, List.flatMap_cons, selfAndDescendants_mk, List.cons_append]

/-- The walk with a stack answers what the recursion lists: the node at every path but the empty one,
once, in the order of the paths. -/
theorem descendants_in_preorder (n : Node) :
    n.descendants = n.collectDescendants
      ∧ ∃ paths : List (List Nat), paths.Pairwise (· < ·)
        ∧ (∀ path, path ∈ paths ↔ path ≠ [] ∧ (n.at? path).isSome = true)
        ∧ paths.map n.at? = n.descendants.map some := by
  obtain ⟨form, operands⟩ := n
  have hwalk : descendants ⟨form, operands⟩ = collectDescendants ⟨form, operands⟩ := by
    rw [descendants, Walk.toList_eq, Walk.below, List.reverse_reverse, collectDescendants,
      collectForest_eq]
  choose paths hpaths using exists_explores
  rw [hwalk]
  exact ⟨rfl, _, explores_below form fun o _ => hpaths o⟩

end ScriptLowering.Script.Node
