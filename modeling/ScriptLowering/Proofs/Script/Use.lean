import ScriptLowering.Canonical.Declaration
import ScriptLowering.Proofs.Script.Tidy

/-!
# Uses of variables

`Node.uses` lists the uses of variables in a tree in pre-order: a variable is the target of a plain
assignment, receives a caught exception, or is read. In a tidy tree the first use of a tracked
variable that the tree may not rely on is no read (`Tidy.assignedFirst`).
-/

namespace ScriptLowering.Script

open Canonical

/-- What becomes of a variable where it occurs. -/
inductive UseKind where
  | read
  /-- The variable is the target of a plain assignment. -/
  | assigned
  /-- The variable receives the exception that a handler catches. -/
  | caught
  deriving DecidableEq

/-- An occurrence of a variable. -/
structure Use where
  var : Variable
  kind : UseKind

/-- What becomes of a variable that stands in a slot of a form. -/
def Form.useKind (form : Form) (slot : Nat) : UseKind :=
  match form, slot with
  | .binary .assign _, 0 => .assigned
  | _, _ => .read

/-- The use that a form makes of a variable by itself, from the kind of use that is made of it. -/
def Form.use? (form : Form) (kind : UseKind) : Option Use :=
  match form with
  | .var v => some ⟨v, kind⟩
  | .tryCatch (some v) => some ⟨v, .caught⟩
  | _ => none

mutual

/-- The uses of variables in a tree, in pre-order, from the kind of use that is made of it. -/
def Node.uses : UseKind → Node → List Use
  | kind, ⟨form, operands⟩ => (form.use? kind).toList ++ Node.usesFrom form 0 operands

/-- The uses of variables in the operands of a form from a slot on. -/
def Node.usesFrom (form : Form) : Nat → List Node → List Use
  | _, [] => []
  | slot, n :: rest => n.uses (form.useKind slot) ++ Node.usesFrom form (slot + 1) rest

end

/-- The first use of a variable, if there is one, is no read. -/
def AssignedFirst (v : Variable) : List Use → Prop
  | [] => True
  | u :: rest => (u.var = v → u.kind ≠ .read) ∧ (u.var ≠ v → AssignedFirst v rest)

section

variable {kind : UseKind} {form : Form} {slot : Nat} {n : Node} {operands : List Node}
  {v : Variable}

theorem Node.uses_mk :
    Node.uses kind ⟨form, operands⟩ = (form.use? kind).toList ++ Node.usesFrom form 0 operands := by
  rw [Node.uses]

@[simp] theorem Node.usesFrom_nil : Node.usesFrom form slot [] = [] := by
  rw [Node.usesFrom]

theorem Node.usesFrom_cons : Node.usesFrom form slot (n :: operands)
    = n.uses (form.useKind slot) ++ Node.usesFrom form (slot + 1) operands := by
  rw [Node.usesFrom]

theorem Node.exists_use_of_assigned? (h : n.assigned? = some v) : ∃ u ∈ n.uses kind, u.var = v := by
  unfold assigned? at h
  split at h
  · next t target rest =>
    obtain ⟨form, operands⟩ := target
    have hform : form = .var v := Node.form_of_var? h
    simp [hform, Node.uses_mk, Node.usesFrom_cons, Form.use?]
  · cases h

/-! ### First uses -/

theorem AssignedFirst.append {us ws : List Use} (hus : AssignedFirst v us)
    (hws : (∀ u ∈ us, u.var ≠ v) → AssignedFirst v ws) : AssignedFirst v (us ++ ws) := by
  induction us with
  | nil => exact hws (List.forall_mem_nil _)
  | cons u rest ih =>
    refine ⟨hus.1, fun hne => ih (hus.2 hne) fun hrest => hws ?_⟩
    exact List.forall_mem_cons.mpr ⟨hne, hrest⟩

theorem Form.useKind_of_mem_grants (h : v ∈ form.grants slot n) :
    form.useKind slot = .assigned ∧ n.var? = some v := by
  unfold grants at h
  unfold useKind
  split at h
  · exact ⟨rfl, Option.mem_toList.mp h⟩
  · cases h

theorem Form.assigned?_of_mem_passesOn (h : v ∈ form.passesOn n) : n.assigned? = some v := by
  unfold passesOn at h
  split at h
  · exact Option.mem_toList.mp h
  · cases h

theorem Form.not_mem_within {lifting : Bool} {defined : List Variable}
    (hother : ∀ u ∈ (form.use? kind).toList, u.var ≠ v) (hdefined : v ∈ defined → form = .var v) :
    v ∉ form.within lifting defined := by
  have hnot : v ∉ defined := fun hmem => by
    rw [hdefined hmem] at hother
    exact hother ⟨v, kind⟩ (List.mem_singleton_self _) rfl
  unfold within
  split
  · next w =>
    have hne : v ≠ w := fun heq => hother ⟨w, .caught⟩ (List.mem_singleton_self _) heq.symm
    exact List.not_mem_cons_of_ne_of_not_mem hne hnot
  · split
    · exact List.not_mem_nil
    · exact hnot
  · exact hnot

theorem Discipline.Permits.assignedFirst {d : Discipline} {defined : List Variable}
    (h : d.Permits defined form) (hv : d.tracks v) (hdefined : v ∈ defined → kind = .assigned) :
    AssignedFirst v (form.use? kind).toList := by
  unfold Form.use?
  split
  · next w =>
    refine ⟨?_, fun _ => trivial⟩
    rintro rfl
    simp [hdefined (h hv)]
  · exact ⟨fun _ => by simp, fun _ => trivial⟩
  · trivial

mutual

theorem Tidy.assignedFirst {d : Discipline} {v : Variable} (hv : d.tracks v) :
    ∀ {n : Node} {lifting : Bool} {defined : List Variable} {kind : UseKind},
      Tidy d lifting defined n → (v ∈ defined → kind = .assigned ∧ n.var? = some v) →
      AssignedFirst v (n.uses kind)
  | ⟨form, operands⟩, lifting, defined, kind, h, hdefined => by
    obtain ⟨hform, hoperands⟩ := tidy_mk.mp h
    rw [Node.uses_mk]
    -- The form itself comes first; where it uses another variable, the operands decide.
    refine (hform.assignedFirst hv fun hmem => (hdefined hmem).1).append fun hother => ?_
    refine TidyFrom.assignedFirst hv hoperands (Form.not_mem_within hother fun hmem => ?_)
    exact Node.form_of_var? (hdefined hmem).2

theorem TidyFrom.assignedFirst {d : Discipline} {v : Variable} (hv : d.tracks v) :
    ∀ {operands : List Node} {lifting : Bool} {form : Form} {slot : Nat} {defined : List Variable},
      TidyFrom d lifting form slot defined operands → v ∉ defined →
      AssignedFirst v (Node.usesFrom form slot operands)
  | [], _, _, _, _, _, _ => by
    rw [Node.usesFrom_nil]
    trivial
  | n :: rest, lifting, form, slot, defined, h, hdefined => by
    obtain ⟨hfirst, hrest⟩ := tidyFrom_cons.mp h
    rw [Node.usesFrom_cons]
    refine AssignedFirst.append (Tidy.assignedFirst hv hfirst fun hmem => ?_) fun hother => ?_
    · exact Form.useKind_of_mem_grants ((List.mem_append.mp hmem).resolve_right hdefined)
    · refine TidyFrom.assignedFirst hv hrest fun hmem => ?_
      have hpassed := (List.mem_append.mp hmem).resolve_right hdefined
      -- What an element passes on is used in it.
      obtain ⟨u, hu, heq⟩ :=
        Node.exists_use_of_assigned? (Form.assigned?_of_mem_passesOn hpassed)
      exact hother u hu heq

end

end

end ScriptLowering.Script
