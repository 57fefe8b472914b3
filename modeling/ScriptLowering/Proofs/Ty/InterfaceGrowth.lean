import Mathlib.Algebra.Order.BigOperators.Group.List
import Mathlib.Algebra.Order.Ring.Nat
import ScriptLowering.Proofs.Ty.InterfaceSearch
import ScriptLowering.Proofs.Ty.Substitution

/-!
# Which interface lists can be searched

Interfaces that list larger and larger instances of themselves have new names forever, and the
search for them never ends (`Hierarchy.growing_never_ends`).
-/

namespace ScriptLowering

namespace Ty

/-! ### The length of names -/

theorem substituteFor_typeParam (o : Ty) (position : Nat) (name? : Option String) (owner : String)
    (arguments : List Ty) :
    (typeParam o position name?).substituteFor owner arguments = .typeParam o position name?
      ∨ o.fullName = owner ∧ arguments[position]?
        = some ((typeParam o position name?).substituteFor owner arguments) := by
  rw [substituteFor]
  split
  · next howner =>
    cases hargument : arguments[position]? with
    | none => exact .inl rfl
    | some a => exact .inr ⟨beq_iff_eq.mp howner, rfl⟩
  · exact .inl rfl

/-- How long a name may get when arguments are put for the parameters in a type, by how long the
name of the argument at each place may be. -/
def stretch (limit : String × Nat → Nat) (t : Ty) : Nat :=
  t.fullName.length + (t.places.map limit).sum

section

variable {limit : String × Nat → Nat} {owner : String} {arguments : List Ty}

mutual

theorem length_substituteFor_le
    (hlimit : ∀ i a, arguments[i]? = some a → a.fullName.length ≤ limit (owner, i)) :
    ∀ t : Ty, (t.substituteFor owner arguments).fullName.length ≤ t.stretch limit
  | named _ | nested _ _ | methodParam _ _ _ _ _ => by
    rw [substituteFor]
    exact Nat.le_add_right _ _
  | array element _ | byRef element | pointer element | pinned element | modified element _ _ => by
    have helement := length_substituteFor_le hlimit element
    simp only [stretch, substituteFor, arrayOf, fullName, places, String.length_append] at helement ⊢
    grind
  | inst _ inner => by
    have hinner := length_substituteForList_le hlimit inner
    simp only [stretch, substituteFor, fullName, places, String.length_append]
    omega
  | functionPointer result parameters => by
    have hresult := length_substituteFor_le hlimit result
    have hparameters := length_substituteForList_le hlimit parameters
    simp only [stretch, substituteFor, fullName, places, String.length_append, List.map_append,
      List.sum_append] at hresult ⊢
    omega
  | typeParam o position name? => by
    rcases substituteFor_typeParam o position name? owner arguments with hsame | ⟨rfl, hargument⟩
    · rw [hsame]
      exact Nat.le_add_right _ _
    · refine (hlimit position _ hargument).trans ?_
      simp [stretch, places]

theorem length_substituteForList_le
    (hlimit : ∀ i a, arguments[i]? = some a → a.fullName.length ≤ limit (owner, i)) :
    ∀ ts : List Ty, (",".intercalate (fullNames (substituteForList owner arguments ts))).length
      ≤ (",".intercalate (fullNames ts)).length + ((placesAll ts).map limit).sum
  | [] => Nat.le_add_right _ _
  | [t] => by
    have ht := length_substituteFor_le hlimit t
    simpa [stretch, substituteForList, fullNames, placesAll] using ht
  | t :: u :: us => by
    have ht := length_substituteFor_le hlimit t
    have hus := length_substituteForList_le hlimit (u :: us)
    simp only [stretch, substituteForList, fullNames, String.intercalate_cons_cons, placesAll,
      String.length_append, List.map_append, List.sum_append] at ht hus ⊢
    omega

end

end

/-- How long the name of an argument may be at a place of a lower level than `k`, if an argument is
there from the start, or one of `inner` with arguments of lower levels. -/
def lengthBelow (start : Nat) (inner : List Ty) : Nat → Nat
  | 0 => 0
  | k + 1 => start + lengthBelow start inner k
    + (inner.map (stretch fun _ => lengthBelow start inner k)).sum

section

variable {start : Nat} {inner : List Ty} {a : Ty}

theorem lengthBelow_mono : Monotone (lengthBelow start inner) :=
  monotone_nat_of_le_succ fun k => by
    rw [lengthBelow]
    omega

theorem stretch_le_lengthBelow (ha : a ∈ inner) (k : Nat) :
    (a.stretch fun _ => lengthBelow start inner k) ≤ lengthBelow start inner (k + 1) :=
  (List.le_sum_of_mem (List.mem_map_of_mem ha)).trans (Nat.le_add_left _ _)

theorem length_le_lengthBelow (ha : a ∈ inner) (k : Nat) :
    a.fullName.length ≤ lengthBelow start inner (k + 1) :=
  (Nat.le_add_right _ _).trans (stretch_le_lengthBelow ha k)

end

theorem strip_of_isDefinition {t : Ty} (ht : t.isDefinition = true) : t.strip = t := by
  cases t with
  | named _ | nested _ _ => exact strip_of_isBare rfl
  | _ => cases ht

end Ty

namespace Hierarchy

variable {h : Hierarchy} {level : String × Nat → Nat}

/-- What is listed is a definition or an instance, and the places of parameters have levels such that
no list puts a parameter to a place of a lower level, nor inside an argument to a place of its own
level. -/
def Leveled (h : Hierarchy) (level : String × Nat → Nat) : Prop :=
  ∀ e ∈ h.interfaces, e.2.isDefinition = true ∨ ∃ generic inner, e.2 = .inst generic inner
    ∧ ∀ i a, inner[i]? = some a →
      (∃ owner position name?, a = .typeParam owner position name?
        ∧ level (owner.fullName, position) ≤ level (generic.fullName, i))
      ∨ ∀ p ∈ a.places, level p < level (generic.fullName, i)

/-- How long the name of the argument at a place may be, if the names of arguments are no longer
than `start` in the beginning. -/
def limitAt (h : Hierarchy) (level : String × Nat → Nat) (start : Nat) (p : String × Nat) : Nat :=
  Ty.lengthBelow start (h.interfaces.flatMap (·.2.genericArguments)) (level p + 1)

/-- A type whose arguments have names that are short enough for their places. -/
def Fits (h : Hierarchy) (level : String × Nat → Nat) (start : Nat) (t : Ty) : Prop :=
  ∀ generic arguments, t.strip = .inst generic arguments → ∀ i a, arguments[i]? = some a →
    a.fullName.length ≤ h.limitAt level start (generic.fullName, i)

theorem mem_interfacesOf {i : Ty} : ∀ {t : Ty}, i ∈ h.interfacesOf t → ∃ e ∈ h.interfaces, i = e.2
    ∨ ∃ generic arguments, t.strip = .inst generic arguments
      ∧ i = e.2.substituteFor generic.fullName arguments
  | .named d, hi | .nested _ d, hi => by
    obtain ⟨e, he, rfl⟩ := List.mem_map.mp hi
    exact ⟨e, List.mem_of_mem_filter he, .inl rfl⟩
  | .inst generic arguments, hi => by
    rw [interfacesOf] at hi
    split at hi
    · obtain ⟨u, hlisted, rfl⟩ := List.mem_map.mp hi
      obtain ⟨e, he, rfl⟩ := List.mem_map.mp hlisted
      exact ⟨e, List.mem_of_mem_filter he, .inr ⟨generic, arguments, Ty.strip_of_isBare rfl, rfl⟩⟩
    · cases hi
  | .modified element _ _, hi | .pinned element, hi => by
    rw [Ty.strip]
    exact mem_interfacesOf (t := element) hi

theorem Leveled.listed (hlevel : h.Leveled level) {start : Nat} {t i : Ty}
    (ht : h.Fits level start t) (hi : i ∈ h.interfacesOf t) : h.Fits level start i
      ∧ i.fullName.length ≤ (h.interfaces.map (·.2.stretch (h.limitAt level start))).sum := by
  obtain ⟨e, he, hcases⟩ := mem_interfacesOf hi
  have hname := List.le_sum_of_mem
    (List.mem_map_of_mem (f := (·.2.stretch (h.limitAt level start))) he)
  have hshort : i.fullName.length ≤ e.2.stretch (h.limitAt level start) := by
    rcases hcases with rfl | ⟨owner, values, hinst, rfl⟩
    · exact Nat.le_add_right _ _
    · exact Ty.length_substituteFor_le (ht owner values hinst) e.2
  refine ⟨fun generic arguments hstrip j a ha => ?_, hshort.trans hname⟩
  rcases hlevel e he with hdefinition | ⟨outer, inner, heq, hinner⟩
  · have hbare : i.strip = e.2 := by
      rcases hcases with rfl | ⟨owner, values, -, rfl⟩
      · exact Ty.strip_of_isDefinition hdefinition
      · rw [Ty.substituteFor_of_isDefinition hdefinition, Ty.strip_of_isDefinition hdefinition]
    rw [← hbare, hstrip] at hdefinition
    cases hdefinition
  have hmem : ∀ {b}, inner[j]? = some b → b ∈ h.interfaces.flatMap (·.2.genericArguments) :=
    fun hb => List.mem_flatMap.mpr ⟨e, he, by rw [heq]; exact List.mem_of_getElem? hb⟩
  rcases hcases with rfl | ⟨owner, values, hinst, rfl⟩
  · rw [heq, Ty.strip_of_isBare rfl] at hstrip
    cases hstrip
    exact Ty.length_le_lengthBelow (hmem ha) _
  -- The argument is that of a listed interface, with values put into it.
  rw [heq, Ty.substituteFor, Ty.substituteForList_eq_map, Ty.strip_of_isBare rfl] at hstrip
  cases hstrip
  have hvalues := ht owner values hinst
  obtain ⟨b, hb, rfl⟩ : ∃ b, inner[j]? = some b ∧ b.substituteFor owner.fullName values = a := by
    simpa using ha
  rcases hinner j b hb with ⟨o, position, name?, rfl, hle⟩ | hlower
  · rcases Ty.substituteFor_typeParam o position name? owner.fullName values
      with hsame | ⟨howner, hvalue⟩
    · rw [hsame]
      exact Ty.length_le_lengthBelow (hmem hb) _
    · refine (hvalues position _ hvalue).trans (Ty.lengthBelow_mono ?_)
      rw [← howner]
      exact Nat.succ_le_succ hle
  · refine ((Ty.length_substituteFor_le hvalues b).trans ?_).trans
      (Ty.stretch_le_lengthBelow (hmem hb) _)
    refine Nat.add_le_add_left (List.sum_le_sum fun p hp => ?_) _
    exact Ty.lengthBelow_mono (Nat.succ_le_of_lt (hlower p hp))

/-! ### Searches -/

theorem Leveled.visits (hlevel : h.Leveled level) {types : List Ty} {start : Nat}
    (htypes : ∀ t ∈ types, h.Fits level start t) (n : Nat) :
    ∀ i ∈ (h.visits types n).pending ++ (h.visits types n).found, h.Fits level start i
      ∧ i.fullName.length ≤ (h.interfaces.map (·.2.stretch (h.limitAt level start))).sum := by
  rw [Hierarchy.visits, InterfaceSearch.run_eq_iterate]
  induction n with
  | zero =>
    intro i hi
    rw [Function.iterate_zero_apply, InterfaceSearch.ofPending, List.append_nil,
      List.mem_reverse] at hi
    obtain ⟨t, ht, hi⟩ := List.mem_flatMap.mp hi
    exact hlevel.listed (htypes t ht) hi
  | succ n ih =>
    rw [Function.iterate_succ_apply']
    generalize (InterfaceSearch.step h)^[n] _ = s at ih
    rcases s.step_cases h with ⟨-, heq⟩ | ⟨next, rest, hcons, ⟨-, heq⟩ | ⟨-, heq⟩⟩
    · rwa [heq]
    · rw [heq]
      exact fun i hi => ih i (by simp_all)
    · -- Only the interfaces of the next one are new, and they fit because it does.
      rw [heq]
      intro i hi
      have hnext := ih next (by simp [hcons])
      simp only [List.mem_append, List.mem_reverse, List.mem_cons] at hi
      rcases hi with (hi | hi) | rfl | hi
      · exact hlevel.listed hnext.1 hi
      · exact ih i (by simp [hcons, hi])
      · exact hnext
      · exact ih i (by simp [hi])

theorem exists_fits (h : Hierarchy) (level : String × Nat → Nat) (types : List Ty) :
    ∃ start, ∀ t ∈ types, h.Fits level start t := by
  refine ⟨((types.flatMap (·.strip.genericArguments)).map (·.fullName.length)).sum, ?_⟩
  intro t ht generic arguments hstrip i a ha
  have hmem : a ∈ types.flatMap (·.strip.genericArguments) :=
    List.mem_flatMap.mpr ⟨t, ht, by rw [hstrip]; exact List.mem_of_getElem? ha⟩
  refine (List.le_sum_of_mem (List.mem_map_of_mem (f := (·.fullName.length)) hmem)).trans ?_
  rw [limitAt, Ty.lengthBelow, Nat.add_assoc]
  exact Nat.le_add_right _ _

theorem visits_end_iff {types : List Ty} : (∃ n, (h.visits types n).pending = [])
    ↔ ∃ bound, ∀ n, ∀ i ∈ (h.visits types n).found, i.fullName.length ≤ bound :=
  (InterfaceSearch.recorded_ofPending _).ends_iff

theorem Leveled.visits_end (hlevel : h.Leveled level) (types : List Ty) :
    ∃ n, (h.visits types n).pending = [] := by
  obtain ⟨start, hfits⟩ := h.exists_fits level types
  exact visits_end_iff.mpr
    ⟨_, fun n i hi => (hlevel.visits hfits n i (List.mem_append_right _ hi)).2⟩

/-- The search for the interfaces of any types ends just if the names that it finds are of bounded
length, and then nothing is left to visit, however many visits are allowed beyond. It ends for every
list of types where the places of parameters have levels. -/
theorem search_ends_iff_names_bounded (h : Hierarchy) (types : List Ty) :
    ((∃ n, ∀ m ≥ n, (h.visits types m).pending = [] ∧ h.visits types m = h.visits types n)
      ↔ ∃ bound, ∀ n, ∀ i ∈ (h.visits types n).found, i.fullName.length ≤ bound)
    ∧ ((∃ level, h.Leveled level) →
      ∃ n, ∀ m ≥ n, (h.visits types m).pending = [] ∧ h.visits types m = h.visits types n) := by
  have hends : (∃ n, ∀ m ≥ n, (h.visits types m).pending = []
      ∧ h.visits types m = h.visits types n) ↔ ∃ n, (h.visits types n).pending = [] := by
    constructor
    · exact fun ⟨n, hn⟩ => ⟨n, (hn n le_rfl).1⟩
    · rintro ⟨n, hn⟩
      refine ⟨n, fun m hm => ?_⟩
      have hsame : h.visits types m = h.visits types n := InterfaceSearch.run_of_le hn hm
      exact ⟨by rw [hsame, hn], hsame⟩
  rw [hends]
  exact ⟨visits_end_iff, fun ⟨level, hlevel⟩ => hlevel.visits_end types⟩

theorem leveled_ofCore (c : Core) : (ofCore c).Leveled fun _ => 0 := by
  intro e he
  obtain ⟨i, -, he⟩ := List.mem_filterMap.mp he
  obtain ⟨parent, -, he⟩ := Option.bind_eq_some_iff.mp he
  obtain ⟨d, -, rfl⟩ := Option.map_eq_some_iff.mp he
  refine .inr ⟨_, _, rfl, fun i a ha => .inl ?_⟩
  rw [List.getElem?_singleton, Option.ite_none_right_eq_some] at ha
  exact ⟨_, 0, _, (Option.some.inj ha.2).symm, le_rfl⟩

/-- The search for what a list of lists of integers implements ends. -/
theorem core_search_ends :
    let list (t : Ty) := Ty.inst (Core.standard.collectionInterface .list) [t]
    let h := ofCore .standard
    ∃ n, ∀ m ≥ n, (h.visits [list (list Core.standard.int32)] m).pending = []
      ∧ h.visits [list (list Core.standard.int32)] m
        = h.visits [list (list Core.standard.int32)] n :=
  (search_ends_iff_names_bounded _ _).2 ⟨_, leveled_ofCore .standard⟩

/-! ### An interface that lists an instance of itself -/

/-- Nodes of some type are nodes of nodes of it, and widgets are nodes of integers. -/
def nodeInterface : Ty :=
  .named { Definition.plain 76 "App" "INode`1" (.ofFile "App") .interfaceType with
    genericParameters := ["T"] }

def widgetClass : Ty :=
  .named (.plain 77 "App" "Widget" (.ofFile "App") .classType)

def growing : Hierarchy where
  core := .standard
  bases := []
  interfaces := [(76, .inst nodeInterface [.inst nodeInterface [nodeInterface.typeParamOf 0]]),
    (77, .inst nodeInterface [Core.standard.int32])]

/-- Nodes of nodes, `n` times, of integers. -/
def tower : Nat → Ty
  | 0 => .inst nodeInterface [Core.standard.int32]
  | n + 1 => .inst nodeInterface [tower n]

theorem interfacesOf_tower (n : Nat) : growing.interfacesOf (tower n) = [tower (n + 1)] := by
  cases n <;> rfl

theorem length_tower_lt (n : Nat) :
    (tower n).fullName.length < (tower (n + 1)).fullName.length := by
  have hclose : ">".length = 1 := rfl
  simp [tower, Ty.fullName, Ty.fullNames]
  omega

theorem visits_growing (n : Nat) : ∃ k,
    (growing.visits [widgetClass] n).pending = [tower k]
      ∧ ∀ name, (growing.visits [widgetClass] n).seen.contains name = true →
        name.length < (tower k).fullName.length := by
  rw [visits, InterfaceSearch.run_eq_iterate]
  induction n with
  | zero => exact ⟨0, rfl, fun name hname => by simp [InterfaceSearch.ofPending] at hname⟩
  | succ n ih =>
    rw [Function.iterate_succ_apply']
    generalize (InterfaceSearch.step growing)^[n] _ = s at ih
    obtain ⟨k, hpending, hseen⟩ := ih
    rcases s.step_cases growing with ⟨hnil, -⟩ | ⟨next, rest, hcons, hcases⟩
    · cases hpending.symm.trans hnil
    obtain ⟨rfl, rfl⟩ : tower k = next ∧ [] = rest := List.cons.inj (hpending.symm.trans hcons)
    rcases hcases with ⟨hold, -⟩ | ⟨-, heq⟩
    · exact absurd (hseen _ hold) (Nat.lt_irrefl _)
    · rw [heq]
      refine ⟨k + 1, by rw [interfacesOf_tower]; rfl, fun name hname => ?_⟩
      rw [Std.HashSet.contains_insert, Bool.or_eq_true, beq_iff_eq] at hname
      have hlonger := length_tower_lt k
      rcases hname with rfl | hname
      · exact hlonger
      · exact (hseen name hname).trans hlonger

/-- The search for the interfaces of a widget never ends. -/
theorem growing_never_ends :
    ¬ ∃ n, (growing.visits (widgetClass :: growing.baseChain widgetClass) n).pending = [] := by
  rintro ⟨n, hn⟩
  obtain ⟨k, hpending, -⟩ := visits_growing n
  have hchain : growing.baseChain widgetClass = [] := rfl
  rw [hchain, hpending] at hn
  exact List.cons_ne_nil _ _ hn

end Hierarchy

end ScriptLowering
