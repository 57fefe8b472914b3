import Mathlib.Data.List.Nodup
import ScriptLowering.Lowering.Scope

/-!
# The variables of a method stay well-formed

In a well-formed scope the numbers of the variables are distinct and below the next number, and the
parameters stand apart from the other variables. Every operation on scopes keeps this and loses no
variable (`Scope.Grows`).
-/

namespace ScriptLowering.Lowering

open Script

namespace Scope

/-- Variables with distinct numbers, each in a list of its role. -/
structure WellFormed (s : Scope) : Prop where
  distinct : (s.allVariables.map (·.id)).Nodup
  numbered : ∀ v ∈ s.allVariables, v.id < s.nextId
  parameters : ∀ v ∈ s.parameters, v.isParameter = true
  others : ∀ v ∈ s.locals ++ s.temporaries, v.isParameter = false

/-- A scope that came from another one by declaring variables. -/
structure Grows (s s' : Scope) : Prop where
  subset : s.allVariables ⊆ s'.allVariables
  wellFormed : s.WellFormed → s'.WellFormed

theorem wellFormed_empty : Scope.empty.WellFormed := by
  constructor <;> simp [Scope.empty, allVariables]

theorem Grows.refl (s : Scope) : s.Grows s :=
  ⟨List.Subset.refl _, id⟩

theorem Grows.trans {s₁ s₂ s₃ : Scope} (h : s₁.Grows s₂) (h' : s₂.Grows s₃) : s₁.Grows s₃ :=
  ⟨List.Subset.trans h.subset h'.subset, fun hs => h'.wellFormed (h.wellFormed hs)⟩

variable {s : Scope} {v : Variable}

theorem WellFormed.eq_of_id_eq (h : s.WellFormed) {w : Variable} (hv : v ∈ s.allVariables)
    (hw : w ∈ s.allVariables) (hid : v.id = w.id) : v = w :=
  List.inj_on_of_nodup_map h.distinct hv hw hid

/-- A new variable stands among the others. -/
theorem allVariables_insert (s : Scope) (v : Variable) :
    (s.insert v).allVariables.Perm (v :: s.allVariables) := by
  unfold insert allVariables
  split
  · simp
  · simp
  · have hmiddle : (s.parameters ++ s.locals ++ v :: s.temporaries).Perm
        (v :: (s.parameters ++ s.locals ++ s.temporaries)) := List.perm_middle
    simpa using hmiddle
  · simpa using List.perm_append_singleton v (s.parameters ++ s.locals ++ s.temporaries)

/-- The variables after one was added. -/
theorem allVariables_add (s : Scope) (name : String) (kind : VariableKind) (type : Ty) :
    (s.add name kind type).2.allVariables.Perm
      ((s.add name kind type).1 :: s.allVariables) :=
  allVariables_insert s _

theorem WellFormed.add (h : s.WellFormed) (name : String) (kind : VariableKind) (type : Ty) :
    (s.add name kind type).2.WellFormed where
  distinct := by
    rw [((allVariables_add s name kind type).map _).nodup_iff, List.map_cons, List.nodup_cons]
    refine ⟨fun hmem => ?_, h.distinct⟩
    -- The new number is above all numbers in use.
    obtain ⟨w, hw, hid⟩ := List.mem_map.mp hmem
    exact absurd (h.numbered w hw) (hid ▸ Nat.lt_irrefl _)
  numbered := by
    intro w hw
    rcases List.mem_cons.mp ((allVariables_add s name kind type).mem_iff.mp hw) with rfl | hold
    · exact Nat.lt_succ_self _
    · exact Nat.lt_succ_of_lt (h.numbered w hold)
  parameters := by
    have hold := h.parameters
    cases kind <;> simp_all [Scope.add, insert, Variable.isParameter, or_imp]
  others := by
    have hold := h.others
    cases kind <;> simp_all [Scope.add, insert, Variable.isParameter, or_imp, forall_and]

theorem grows_add (s : Scope) (name : String) (kind : VariableKind) (type : Ty) :
    s.Grows (s.add name kind type).2 where
  subset :=
    List.Subset.trans (List.subset_cons_self _ _) (allVariables_add s name kind type).symm.subset
  wellFormed h := h.add name kind type

/-- The added variable is one of the scope. -/
theorem mem_add (s : Scope) (name : String) (kind : VariableKind) (type : Ty) :
    (s.add name kind type).1 ∈ (s.add name kind type).2.allVariables :=
  (allVariables_add s name kind type).symm.subset List.mem_cons_self

variable {name : String} {kind : VariableKind}

theorem addTemporary_spec (s : Scope) (number : Nat) (type : Ty) :
    (s.addTemporary number type).1 ∈ (s.addTemporary number type).2.allVariables
      ∧ s.Grows (s.addTemporary number type).2 := by
  have hadd := grows_add s (temporaryName number) .temporary type
  refine ⟨mem_add s (temporaryName number) .temporary type, hadd.subset, fun h => ?_⟩
  have hnew := hadd.wellFormed h
  exact ⟨hnew.distinct, hnew.numbered, hnew.parameters, hnew.others⟩

theorem newTemporary_spec (s : Scope) (type : Ty) :
    (s.newTemporary type).1 ∈ (s.newTemporary type).2.allVariables
      ∧ s.Grows (s.newTemporary type).2 :=
  addTemporary_spec s _ type

theorem ne_temporaryName (h : name.toList.head? ≠ some '$') (n : Nat) : name ≠ temporaryName n := by
  rintro rfl
  simp [temporaryName] at h

theorem grows_retype (s : Scope) (v : Variable) (t : Ty) : s.Grows (s.retype v t) where
  subset := List.Subset.refl _
  wellFormed h := ⟨h.distinct, h.numbered, h.parameters, h.others⟩

end Scope

namespace Table

variable {t t' : Table} {name : String} {kind : VariableKind} {type : Ty} {v : Variable}

section

variable {h : Hierarchy} (hok : t.declare h name kind type = .ok (v, t'))
include hok

theorem declare_cases : t.find? name = some v ∧ t' = t
    ∨ t.find? name = none ∧ v = (t.add name kind type).1 ∧ t' = (t.add name kind type).2 := by
  unfold declare at hok
  split at hok
  · next hfind =>
    simp only at hok
    split at hok <;> cases hok
    exact .inl ⟨hfind, rfl⟩
  · next hfree =>
    cases hok
    exact .inr ⟨hfree, rfl, rfl⟩

/-- A declared variable is one of the scope. -/
theorem declare_spec : v ∈ t'.allVariables ∧ t.Grows t'.toScope := by
  rcases declare_cases hok with ⟨hfind, rfl⟩ | ⟨-, rfl, rfl⟩
  · exact ⟨(t'.listed hfind).1, .refl _⟩
  · exact ⟨Scope.mem_add t.toScope name kind type, Scope.grows_add t.toScope name kind type⟩

theorem declare_name : v.name = name := by
  rcases declare_cases hok with ⟨hfind, -⟩ | ⟨-, rfl, -⟩
  · exact (t.listed hfind).2
  · rfl

end

/-- A new temporary is one of the scope. -/
theorem newTemporary_spec (t : Table) (type : Ty) :
    (t.newTemporary type).1 ∈ (t.newTemporary type).2.allVariables
      ∧ t.Grows (t.newTemporary type).2.toScope :=
  Scope.addTemporary_spec t.toScope _ type

end Table

end ScriptLowering.Lowering
