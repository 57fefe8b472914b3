import Mathlib.Data.Set.Lattice
import ScriptLowering.Script.Literal

/-!
# Names of enumeration constants

The names of an enumeration constant are those of members that make up its value
(`Literal.ofEnum_names_members`): the first member with that value, or else, in a flags enumeration,
all members other than zero whose bits are in the value, if together they are the value.
-/

namespace ScriptLowering.Script.Literal

/-! ### Values as sets of bits -/

/-- The bits that are set in a value. -/
def bits (v : Int64) : Set Nat :=
  {i | v.toBitVec.getLsbD i = true}

theorem bits_injective : Function.Injective bits := by
  intro v w h
  refine Int64.toBitVec_inj.mp (BitVec.eq_of_getLsbD_eq fun i _ => ?_)
  exact Bool.eq_iff_iff.mpr (Set.ext_iff.mp h i)

theorem bits_zero : bits 0 = ∅ := by
  ext i
  simp [bits]

theorem bits_or (v w : Int64) : bits (v ||| w) = bits v ∪ bits w := by
  ext i
  simp [bits]

theorem bits_and (v w : Int64) : bits (v &&& w) = bits v ∩ bits w := by
  ext i
  simp [bits]

theorem bits_and_not (v w : Int64) : bits (v &&& ~~~w) = bits v \ bits w := by
  ext i
  have hbound : v.toBitVec.getLsbD i = true → i < 64 := BitVec.lt_of_getLsbD
  simp only [bits, Int64.toBitVec_and, Int64.toBitVec_not, BitVec.getLsbD_and, BitVec.getLsbD_not,
    Set.mem_ofPred_eq, Set.mem_sdiff, Bool.and_eq_true, Bool.not_eq_true', decide_eq_true_eq]
  grind

theorem and_eq_right_iff {v w : Int64} : v &&& w = w ↔ bits w ⊆ bits v := by
  rw [← bits_injective.eq_iff, bits_and, Set.inter_eq_right]

/-! ### Combinations of members -/

/-- The bits of some members, taken together. -/
def combined (members : List (String × Int64)) : Int64 :=
  members.foldr (fun m rest => m.2 ||| rest) 0

/-- The members other than zero that a value contains. -/
def contained (members : List (String × Int64)) (value : Int64) : List (String × Int64) :=
  members.filter fun m => m.2 != 0 && value &&& m.2 == m.2

variable {members chosen : List (String × Int64)} {value : Int64}

theorem mem_bits_combined {i : Nat} : i ∈ bits (combined members) ↔ ∃ m ∈ members, i ∈ bits m.2 := by
  induction members with
  | nil => simp [combined, bits_zero]
  | cons m rest ih =>
    have hcons : combined (m :: rest) = m.2 ||| combined rest := rfl
    rw [hcons, bits_or, Set.mem_union, ih]
    simp

theorem mem_contained {m : String × Int64} :
    m ∈ contained members value ↔ m ∈ members ∧ m.2 ≠ 0 ∧ bits m.2 ⊆ bits value := by
  rw [contained, List.mem_filter, Bool.and_eq_true, bne_iff_ne, beq_iff_eq, and_eq_right_iff]

/-- What a value contains is within it. -/
theorem bits_combined_contained : bits (combined (contained members value)) ⊆ bits value := by
  intro i hi
  obtain ⟨m, hm, hi⟩ := mem_bits_combined.mp hi
  exact (mem_contained.mp hm).2.2 hi

theorem bits_remaining (members : List (String × Int64)) (value : Int64) :
    bits (members.foldl (fun rest m => rest &&& ~~~m.2) value)
      = bits value \ bits (combined members) := by
  induction members generalizing value with
  | nil => simp [combined, bits_zero]
  | cons m rest ih =>
    have hcons : combined (m :: rest) = m.2 ||| combined rest := rfl
    rw [List.foldl_cons, ih, hcons, bits_or, bits_and_not, Set.sdiff_sdiff]

theorem flagNames_eq (members : List (String × Int64)) (value : Int64) :
    flagNames members value
      = (if combined (contained members value) = value then contained members value
          else []).map Prod.fst := by
  have hremaining : (contained members value).foldl (fun rest m => rest &&& ~~~m.2) value = 0
      ↔ combined (contained members value) = value := by
    rw [← bits_injective.eq_iff, bits_remaining, bits_zero, Set.sdiff_eq_empty,
      ← bits_injective.eq_iff]
    exact ⟨bits_combined_contained.antisymm, fun h => h.ge⟩
  rw [flagNames, ← contained]
  simp only [beq_iff_eq, hremaining]
  split <;> rfl

theorem combined_contained_of_combined (hchosen : chosen ⊆ members) (h : combined chosen = value) :
    combined (contained members value) = value := by
  refine bits_injective (bits_combined_contained.antisymm fun i hi => ?_)
  rw [← h] at hi
  obtain ⟨m, hm, hi⟩ := mem_bits_combined.mp hi
  have hzero : m.2 ≠ 0 := by
    intro hzero
    rw [hzero, bits_zero] at hi
    exact hi
  have hwithin : bits m.2 ⊆ bits value := by
    intro j hj
    rw [← h]
    exact mem_bits_combined.mpr ⟨m, hm, hj⟩
  exact mem_bits_combined.mpr ⟨m, mem_contained.mpr ⟨hchosen hm, hzero, hwithin⟩, hi⟩

/-! ### The names of a value -/

theorem memberNames_of_find?_eq_none {d : Definition}
    (hfind : d.members.find? (·.2 == value) = none) :
    memberNames d value = (if d.isFlagsEnum = true ∧ combined (contained d.members value) = value
      then contained d.members value else []).map Prod.fst := by
  rw [memberNames, hfind, flagNames_eq]
  cases d.isFlagsEnum <;> simp

/-- The names of a constant are those of members that combine to its value. In a flags enumeration
without a member of that value they are all contained members other than zero, if those combine to
it, and none otherwise. So a value other than zero that some members combine to has names. -/
theorem ofEnum_names_members {t : Ty} {d : Definition} (hd : t.definition? = some d)
    (value : Int64) :
    ∃ selected : List (String × Int64),
      ofEnum t value = .enumeration value t (selected.map Prod.fst)
      ∧ selected.Sublist d.members
      ∧ (selected ≠ [] → combined selected = value)
      ∧ (d.isFlagsEnum = true → (∀ m ∈ d.members, m.2 ≠ value) →
        selected = if combined (contained d.members value) = value then contained d.members value
          else [])
      ∧ (d.isFlagsEnum = true → value ≠ 0 →
        (∃ chosen, chosen ⊆ d.members ∧ combined chosen = value) → selected ≠ []) := by
  have hnames : ofEnum t value = .enumeration value t (memberNames d value) := by
    rw [ofEnum, hd]
    rfl
  cases hfind : d.members.find? (·.2 == value) with
  | some m =>
    have hvalue : m.2 = value := by simpa using List.find?_some hfind
    have hmem : m ∈ d.members := List.mem_of_find?_eq_some hfind
    refine ⟨[m], ?_, List.singleton_sublist.mpr hmem, fun _ => ?_, fun _ hno => ?_, fun _ _ _ => ?_⟩
    · rw [hnames, memberNames, hfind]
      rfl
    · rw [← hvalue]
      exact Int64.or_zero
    · exact absurd hvalue (hno m hmem)
    · exact List.cons_ne_nil _ _
  | none =>
    refine ⟨_, hnames.trans (congrArg _ (memberNames_of_find?_eq_none hfind)), ?_, ?_, ?_, ?_⟩
    · split
      · exact List.filter_sublist
      · exact List.nil_sublist _
    · split
      · next hall => exact fun _ => hall.2
      · exact fun h => absurd rfl h
    · intro hflags _
      simp [hflags]
    · rintro hflags hzero ⟨chosen, hchosen, hcombined⟩
      have hall := combined_contained_of_combined hchosen hcombined
      rw [if_pos ⟨hflags, hall⟩]
      -- No members combine to zero.
      intro hnil
      rw [hnil] at hall
      exact hzero hall.symm

/-- The rights to a file, with a member for two of them. -/
def accessRights : Definition :=
  { Definition.plain 80 "App" "Access" (.ofFile "App") (.enumeration .i4) with
    isFlagsEnum := true
    members := [("None", 0), ("Read", 1), ("Write", 2), ("Both", 3), ("Delete", 8), ("Any", -1)] }

/-- Eleven is named by all members that it contains, the combined one with its parts, and four, which
only the member of all bits has, by none. -/
theorem accessRights_eleven_and_four :
    ofEnum (.named accessRights) 11
        = .enumeration 11 (.named accessRights) ["Read", "Write", "Both", "Delete"]
      ∧ ofEnum (.named accessRights) 4 = .enumeration 4 (.named accessRights) [] := by
  obtain ⟨eleven, height, -, -, hcontained, -⟩ :=
    ofEnum_names_members (t := .named accessRights) rfl 11
  obtain ⟨four, hfour, -, -, hnone, -⟩ := ofEnum_names_members (t := .named accessRights) rfl 4
  rw [height, hfour, hcontained rfl (by decide), hnone rfl (by decide)]
  exact ⟨rfl, rfl⟩

end ScriptLowering.Script.Literal
