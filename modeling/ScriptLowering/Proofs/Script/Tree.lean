import Mathlib.Data.List.Forall2
import ScriptLowering.Script.Node

/-!
# Nodes of a tree and what encloses them

`Node.occurrences` lists the nodes of a tree in pre-order, each with the loop bodies and switch
cases around it, the innermost first. A property of nodes in their surroundings holds in a tree when
it holds of every occurrence (`Node.HoldsIn`); `holdsIn_mk` takes such a statement apart along the
tree. `Node.loopIndices` are the indices of the loops of a tree, in pre-order.
-/

namespace ScriptLowering.Script

/-! ### Induction -/

mutual

theorem Node.induction {motive : Node → Prop}
    (step : ∀ form operands, (∀ o ∈ operands, motive o) → motive ⟨form, operands⟩) :
    ∀ n, motive n
  | ⟨form, operands⟩ => step form operands (Node.inductionList step operands)

theorem Node.inductionList {motive : Node → Prop}
    (step : ∀ form operands, (∀ o ∈ operands, motive o) → motive ⟨form, operands⟩) :
    ∀ (operands : List Node), ∀ o ∈ operands, motive o
  | [], _, h => absurd h List.not_mem_nil
  | n :: rest, o, h => by
    rcases List.mem_cons.mp h with heq | hrest
    · rw [heq]
      exact Node.induction step n
    · exact Node.inductionList step rest o hrest

end

theorem Node.form_of_var? {n : Node} {v : Variable} (h : n.var? = some v) : n.form = .var v := by
  unfold var? at h
  split at h
  · next hform => rw [hform, Option.some.inj h]
  · cases h

/-! ### Descendants -/

theorem Node.collectForest_eq :
    ∀ operands : List Node, collectForest operands = operands.flatMap selfAndDescendants
  | [] => by simp [collectForest]
  | n :: rest => by
    rw [collectForest, Node.collectForest_eq rest, List.flatMap_cons, selfAndDescendants,
      List.cons_append]

theorem Node.selfAndDescendants_mk (form : Form) (operands : List Node) :
    selfAndDescendants ⟨form, operands⟩
      = ⟨form, operands⟩ :: operands.flatMap selfAndDescendants := by
  rw [selfAndDescendants, collectDescendants, Node.collectForest_eq]

/-! ### Surroundings -/

/-- A construct that jumps may leave. -/
inductive Enclosure where
  /-- The body of a loop, by the index of the loop. -/
  | loopBody (index : Nat)
  | switchCase
  deriving DecidableEq

/-- Whether the construct is the body of a loop. -/
def Enclosure.isLoopBody : Enclosure → Bool
  | loopBody _ => true
  | switchCase => false

/-- What is around the operand in a slot, from what is around the node. -/
def Form.enclose (form : Form) (slot : Nat) (around : List Enclosure) : List Enclosure :=
  match form, slot with
  | .whileLoop index, 1 => .loopBody index :: around
  | .switchCase _ _, _ => .switchCase :: around
  | _, _ => around

/-- The forms that enclose none of their operands. -/
def Form.isOpen : Form → Bool
  | .whileLoop _ | .switchCase _ _ => false
  | _ => true

variable {form : Form}

theorem Form.enclose_of_isOpen (h : form.isOpen = true) (slot : Nat) (around : List Enclosure) :
    form.enclose slot around = around := by
  unfold Form.enclose
  split
  · cases h
  · cases h
  · rfl

/-- Expressions enclose nothing. -/
theorem Form.isOpen_of_expression (h : form.isStatement = false) : form.isOpen = true := by
  cases form <;> first | rfl | cases h

mutual

/-- The nodes of a tree in pre-order, each with what is around it. -/
def Node.occurrences : List Enclosure → Node → List (List Enclosure × Node)
  | around, ⟨form, operands⟩ =>
    (around, ⟨form, operands⟩) :: Node.occurrencesFrom around form 0 operands

/-- The nodes of the operands from a slot on, each with what is around it. -/
def Node.occurrencesFrom (around : List Enclosure) (form : Form) :
    Nat → List Node → List (List Enclosure × Node)
  | _, [] => []
  | slot, n :: rest =>
    n.occurrences (form.enclose slot around) ++ Node.occurrencesFrom around form (slot + 1) rest

end

mutual

theorem Node.occurrences_map_snd :
    ∀ (around : List Enclosure) (n : Node),
      (n.occurrences around).map Prod.snd = n.selfAndDescendants
  | around, ⟨form, operands⟩ => by
    rw [occurrences, List.map_cons, Node.occurrencesFrom_map_snd, selfAndDescendants_mk]

theorem Node.occurrencesFrom_map_snd (around : List Enclosure) (form : Form) :
    ∀ (slot : Nat) (operands : List Node),
      (occurrencesFrom around form slot operands).map Prod.snd
        = operands.flatMap selfAndDescendants
  | _, [] => by simp [occurrencesFrom]
  | slot, n :: rest => by
    rw [occurrencesFrom, List.map_append, Node.occurrences_map_snd,
      Node.occurrencesFrom_map_snd around form (slot + 1) rest, List.flatMap_cons]

end

/-! ### Properties of all nodes -/

/-- A property of nodes in their surroundings holds of every node of a tree. -/
def Node.HoldsIn (p : List Enclosure → Node → Prop) (around : List Enclosure) (n : Node) : Prop :=
  ∀ o ∈ n.occurrences around, p o.1 o.2

/-- A property of nodes in their surroundings holds of every node of the operands from a slot on. -/
def Node.HoldsFrom (p : List Enclosure → Node → Prop) (around : List Enclosure) (form : Form)
    (slot : Nat) (operands : List Node) : Prop :=
  ∀ o ∈ occurrencesFrom around form slot operands, p o.1 o.2

section

variable {p q : List Enclosure → Node → Prop} {around : List Enclosure} {form : Form}

theorem Node.holdsIn_mk {operands : List Node} :
    HoldsIn p around ⟨form, operands⟩
      ↔ p around ⟨form, operands⟩ ∧ HoldsFrom p around form 0 operands := by
  simp only [HoldsIn, HoldsFrom, occurrences, List.forall_mem_cons]

variable {slot : Nat}

@[simp] theorem Node.holdsFrom_nil : HoldsFrom p around form slot [] := by
  simp [HoldsFrom, occurrencesFrom]

variable {n : Node}

@[simp] theorem Node.holdsFrom_cons {rest : List Node} :
    HoldsFrom p around form slot (n :: rest)
      ↔ HoldsIn p (form.enclose slot around) n ∧ HoldsFrom p around form (slot + 1) rest := by
  simp only [HoldsIn, HoldsFrom, occurrencesFrom, List.forall_mem_append]

theorem Node.HoldsIn.root (h : HoldsIn p around n) : p around n := by
  obtain ⟨form, operands⟩ := n
  exact (Node.holdsIn_mk.mp h).1

theorem Node.holdsFrom_of_isOpen (h : form.isOpen = true) :
    ∀ {slot : Nat} {operands : List Node},
      HoldsFrom p around form slot operands ↔ ∀ o ∈ operands, HoldsIn p around o
  | _, [] => by simp
  | slot, n :: rest => by
    rw [Node.holdsFrom_cons, Form.enclose_of_isOpen h, Node.holdsFrom_of_isOpen h,
      List.forall_mem_cons]

theorem Node.HoldsIn.mono (h : HoldsIn p around n) (hpq : ∀ around m, p around m → q around m) :
    HoldsIn q around n :=
  fun o ho => hpq o.1 o.2 (h o ho)

theorem Node.HoldsFrom.mono {operands : List Node} (h : HoldsFrom p around form slot operands)
    (hpq : ∀ around m, p around m → q around m) : HoldsFrom q around form slot operands :=
  fun o ho => hpq o.1 o.2 (h o ho)

theorem Node.HoldsIn.forall_descendants {r : Node → Prop} (h : HoldsIn p around n)
    (hr : ∀ around m, p around m → r m) : ∀ m ∈ n.selfAndDescendants, r m := by
  intro m hm
  rw [← Node.occurrences_map_snd around n] at hm
  obtain ⟨o, ho, rfl⟩ := List.mem_map.mp hm
  exact hr o.1 o.2 (h o ho)

end

/-! ### Loops -/

/-- The index of a loop. -/
def Form.loopIndex? : Form → Option Nat
  | .whileLoop index => some index
  | _ => none

/-- The indices of the loops of a tree, in pre-order. -/
def Node.loopIndices (n : Node) : List Nat :=
  n.selfAndDescendants.filterMap (·.form.loopIndex?)

theorem Node.loopIndices_mk (form : Form) (operands : List Node) :
    loopIndices ⟨form, operands⟩ = form.loopIndex?.toList ++ operands.flatMap loopIndices := by
  rw [loopIndices, selfAndDescendants_mk, List.filterMap_cons, List.filterMap_flatMap]
  cases form.loopIndex? <;> rfl

/-- Expressions are no loops. -/
theorem Form.loopIndex?_of_expression (h : form.isStatement = false) : form.loopIndex? = none := by
  cases form <;> first | rfl | cases h

end ScriptLowering.Script
