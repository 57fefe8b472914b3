import ScriptLowering.Proofs.Ty.Equivalence
import ScriptLowering.Proofs.Ty.InterfaceSearch

/-!
# Assignability is reachability

Among definitions without generic instances a value can be stored as a `target` if and only if the
target is the object type or can be reached from the type of the value along base types and
interfaces (`Hierarchy.assignable_iff_reaches`). Interface lists may be cyclic: an interface whose
name was seen is dropped.
-/

namespace ScriptLowering

/-! ### Worlds of definitions -/

/-- Equal definitions are written the same. -/
theorem Ty.IsPlainDefinition.fullName_eq {related : Ty → Ty → Bool} : ∀ {a b : Ty},
    a.IsPlainDefinition → b.IsPlainDefinition → agrees related a false b = true →
      a.fullName = b.fullName
  | named d, b, _, hb, h => by
    have hdefinition := hb.definition
    cases b with
    | named d' =>
      simp only [agrees, strip, Bool.false_eq_true, if_false, Definition.sameName,
        Bool.and_eq_true, beq_iff_eq] at h
      simp only [fullName, Definition.qualifiedName, h]
    | nested outer' d' => simp [agrees, strip] at h
    | _ => cases hdefinition
  | nested outer d, b, ha, hb, h => by
    have hdefinition := hb.definition
    cases b with
    | nested outer' d' =>
      simp only [agrees, strip, Bool.false_eq_true, if_false, Definition.sameName,
        Bool.and_eq_true, beq_iff_eq] at h
      simp only [fullName, h, ha.outer.fullName_eq hb.outer h.2]
    | named d' => simp [agrees, strip] at h
    | _ => cases hdefinition
  | array _ _, b, ha, _, _ | byRef _, b, ha, _, _ | pointer _, b, ha, _, _
  | modified _ _ _, b, ha, _, _ | pinned _, b, ha, _, _ | inst _ _, b, ha, _, _
  | typeParam _ _ _, b, ha, _, _ | methodParam _ _ _ _ _, b, ha, _, _
  | functionPointer _ _, b, ha, _, _ => by
    cases ha.definition

namespace Hierarchy

variable {h : Hierarchy} {world : Ty → Prop} {t u i : Ty}

/-- One type derives from another, or lists it as an interface. -/
def Extends (h : Hierarchy) (t u : Ty) : Prop :=
  h.baseOf? t = some u ∨ u ∈ h.interfacesOf t

/-- The base chain of a type ends, after `n` ancestors at most. -/
inductive ChainEnds (h : Hierarchy) : Nat → Ty → Prop where
  | root {n : Nat} {t : Ty} (hbase : h.baseOf? t = none) : ChainEnds h n t
  | derived {n : Nat} {t base : Ty} (hbase : h.baseOf? t = some base) (hends : ChainEnds h n base) :
    ChainEnds h (n + 1) t

/-- A world of definitions with different names, whose base chains end after 64 ancestors at most,
and whose interfaces have no base. -/
structure Definitional (h : Hierarchy) (world : Ty → Prop) : Prop where
  definition : ∀ {t}, world t → t.IsPlainDefinition
  object : world h.core.object
  names : ∀ {t u}, world t → world u → t.fullName = u.fullName → t = u
  base : ∀ {t base}, world t → h.baseOf? t = some base → world base
  ends : ∀ {t}, world t → h.ChainEnds 64 t
  interface : ∀ {t i}, world t → i ∈ h.interfacesOf t → world i ∧ h.baseOf? i = none

theorem Definitional.same_iff (hw : h.Definitional world) (ht : world t) (hu : world u) :
    h.same t u = true ↔ t = u := by
  have hmax : maxCrossings = 65535 + 1 := rfl
  rw [same, equal, hmax, equalUpTo_succ]
  constructor
  · intro hagrees
    exact hw.names ht hu ((hw.definition ht).fullName_eq (hw.definition hu) hagrees)
  · rintro rfl
    exact Ty.agrees_self _ _ _

/-! ### Base chains -/

theorem Definitional.basesUpTo (hw : h.Definitional world) : ∀ {n : Nat} {t : Ty}, world t →
    ∀ b ∈ h.basesUpTo n t, world b ∧ Relation.ReflTransGen h.Extends t b
  | 0, _, _, _, hb => by cases hb
  | n + 1, t, ht, b, hb => by
    rw [Hierarchy.basesUpTo] at hb
    split at hb
    · next base hbase =>
      have hworld := hw.base ht hbase
      rcases List.mem_cons.mp hb with rfl | hb
      · exact ⟨hworld, .single (.inl hbase)⟩
      · obtain ⟨hb, hreach⟩ := hw.basesUpTo hworld b hb
        exact ⟨hb, .head (.inl hbase) hreach⟩
    · cases hb

theorem ChainEnds.mem_basesUpTo {n : Nat} (hends : h.ChainEnds n t) {v : Ty}
    (hu : u ∈ t :: h.basesUpTo n t) (hv : h.baseOf? u = some v) : v ∈ h.basesUpTo n t := by
  induction hends with
  | @root n t hbase =>
    have hnil : h.basesUpTo n t = [] := by cases n <;> simp [Hierarchy.basesUpTo, hbase]
    rw [hnil, List.mem_singleton] at hu
    rw [hu, hbase] at hv
    cases hv
  | @derived n t base hbase hends ih =>
    have hcons : h.basesUpTo (n + 1) t = base :: h.basesUpTo n base := by
      simp [Hierarchy.basesUpTo, hbase]
    rw [hcons] at hu ⊢
    rcases List.mem_cons.mp hu with rfl | hu
    · rw [hbase] at hv
      rw [Option.some.inj hv]
      exact List.mem_cons_self
    · exact List.mem_cons_of_mem _ (ih hu)

theorem exists_interfacesOf_eq (ht : t.IsPlainDefinition) :
    ∃ d, h.interfacesOf t = h.declaredInterfaces d := by
  have hdefinition := ht.definition
  cases t with
  | named d | nested _ d => exact ⟨d, rfl⟩
  | _ => cases hdefinition

theorem mem_table_of_mem_interfacesOf (ht : t.IsPlainDefinition) (hi : i ∈ h.interfacesOf t) :
    i ∈ h.interfaces.map Prod.snd := by
  obtain ⟨d, hd⟩ := h.exists_interfacesOf_eq ht
  rw [hd, declaredInterfaces] at hi
  exact List.map_subset _ (List.filter_subset_self _) hi

/-- What a search from some roots may come across. -/
structure Implemented (h : Hierarchy) (world : Ty → Prop) (roots : List Ty) (i : Ty) : Prop where
  ofWorld : world i
  baseless : h.baseOf? i = none
  listed : i ∈ h.interfaces.map Prod.snd
  reached : ∃ r ∈ roots, Relation.ReflTransGen h.Extends r i

theorem Definitional.implemented (hw : h.Definitional world) {roots : List Ty} {r : Ty}
    (hr : r ∈ roots) (hreach : Relation.ReflTransGen h.Extends r t) (ht : world t)
    (hi : i ∈ h.interfacesOf t) : h.Implemented world roots i where
  ofWorld := (hw.interface ht hi).1
  baseless := (hw.interface ht hi).2
  listed := h.mem_table_of_mem_interfacesOf (hw.definition ht) hi
  reached := ⟨r, hr, hreach.tail (.inr hi)⟩

end Hierarchy

/-! ### The search -/

namespace InterfaceSearch

variable {h : Hierarchy} {world : Ty → Prop} {roots : List Ty} {s : InterfaceSearch}

/-- An interface that is found or will be visited. -/
def Holds (s : InterfaceSearch) (i : Ty) : Prop :=
  i ∈ s.pending ∨ i ∈ s.found

/-- A search for the interfaces of some roots. -/
structure Searches (h : Hierarchy) (world : Ty → Prop) (roots : List Ty) (s : InterfaceSearch) :
    Prop where
  implemented : ∀ {i}, s.Holds i → h.Implemented world roots i
  recorded : s.Recorded
  /-- What a root lists is not lost. -/
  start : ∀ {r i}, r ∈ roots → i ∈ h.interfacesOf r → s.Holds i
  /-- What a found interface lists is not lost. -/
  closed : ∀ {i j}, i ∈ s.found → j ∈ h.interfacesOf i → s.Holds j

variable (hw : h.Definitional world)
include hw

theorem searches_ofPending (hroots : ∀ r ∈ roots, world r) :
    Searches h world roots (.ofPending (roots.flatMap h.interfacesOf).reverse) where
  implemented := by
    rintro i (hi | hi)
    · obtain ⟨r, hr, hi⟩ := List.mem_flatMap.mp (List.mem_reverse.mp hi)
      exact hw.implemented hr .refl (hroots r hr) hi
    · cases hi
  recorded := recorded_ofPending _
  start hr hi := .inl (List.mem_reverse.mpr (List.mem_flatMap.mpr ⟨_, hr, hi⟩))
  closed hi := by cases hi

/-- A visit keeps the search. -/
theorem Searches.step (hs : Searches h world roots s) : Searches h world roots (s.step h) := by
  rcases s.step_cases h with ⟨-, heq⟩ | ⟨next, rest, hpending, hcases⟩
  · rwa [heq]
  have hnext : h.Implemented world roots next :=
    hs.implemented (.inl (by rw [hpending]; exact List.mem_cons_self))
  have hholds : ∀ {i}, s.Holds i → i = next ∨ i ∈ rest ∨ i ∈ s.found := by
    rintro i (hi | hi)
    · rw [hpending] at hi
      exact (List.mem_cons.mp hi).imp_right .inl
    · exact .inr (.inr hi)
  have hrest : ∀ {i}, i ∈ rest ∨ i ∈ s.found → s.Holds i := by
    rintro i (hi | hi)
    · exact .inl (by rw [hpending]; exact List.mem_cons_of_mem _ hi)
    · exact .inr hi
  have hrecorded := hs.recorded.step (h := h)
  rcases hcases with ⟨hseen, heq⟩ | ⟨-, heq⟩
  · -- An interface of the same name was found: names of a world are different, so it is this one.
    obtain ⟨i, hi, hname⟩ := (hs.recorded.seen _).mp hseen
    have hfound : next ∈ s.found := by
      rwa [hw.names (hs.implemented (.inr hi)).ofWorld hnext.ofWorld hname] at hi
    have hkeeps : ∀ {j}, s.Holds j → j ∈ rest ∨ j ∈ s.found := by
      intro j hj
      rcases hholds hj with rfl | hj
      · exact .inr hfound
      · exact hj
    rw [heq] at hrecorded ⊢
    exact ⟨fun hi => hs.implemented (hrest hi), hrecorded,
      fun hr hi => hkeeps (hs.start hr hi), fun hi hj => hkeeps (hs.closed hi hj)⟩
  · -- The name is new: the interface is found, and its own interfaces wait before the others.
    have hkeeps : ∀ {j}, s.Holds j →
        j ∈ (h.interfacesOf next).reverse ++ rest ∨ j ∈ next :: s.found := by
      intro j hj
      rcases hholds hj with rfl | hj | hj
      · exact .inr List.mem_cons_self
      · exact .inl (List.mem_append_right _ hj)
      · exact .inr (List.mem_cons_of_mem _ hj)
    rw [heq] at hrecorded ⊢
    refine ⟨?_, hrecorded, fun hr hi => hkeeps (hs.start hr hi), ?_⟩
    · rintro i (hi | hi)
      · rcases List.mem_append.mp hi with hi | hi
        · obtain ⟨r, hr, hreach⟩ := hnext.reached
          exact hw.implemented hr hreach hnext.ofWorld (List.mem_reverse.mp hi)
        · exact hs.implemented (hrest (.inl hi))
      · rcases List.mem_cons.mp hi with rfl | hi
        · exact hnext
        · exact hs.implemented (.inr hi)
    · intro i j hi hj
      rcases List.mem_cons.mp hi with rfl | hi
      · exact .inl (List.mem_append_left _ (List.mem_reverse.mpr hj))
      · exact hkeeps (hs.closed hi hj)

/-- A run of a search is a search. -/
theorem Searches.run (n : Nat) (hs : Searches h world roots s) :
    Searches h world roots (run h n s) := by
  induction n generalizing s with
  | zero => exact hs
  | succ n ih =>
    rw [InterfaceSearch.run]
    split
    · exact hs
    · exact ih (hs.step hw)

end InterfaceSearch

namespace Hierarchy

variable {h : Hierarchy} {world : Ty → Prop} {target source : Ty}

/-! ### Assignability -/

/-- The types whose interfaces a source has. -/
def lineage (h : Hierarchy) (source : Ty) : List Ty :=
  source :: h.baseChain source

section

variable (hw : h.Definitional world)
include hw

theorem Definitional.lineage (hs : world source) :
    ∀ r ∈ h.lineage source, world r ∧ Relation.ReflTransGen h.Extends source r := by
  intro r hr
  rcases List.mem_cons.mp hr with rfl | hr
  · exact ⟨hs, .refl⟩
  · exact hw.basesUpTo hs r hr

theorem Definitional.exists_found (hs : world source) :
    ∃ found, h.reachableInterfaces? (h.lineage source) = some found
      ∧ (∀ i ∈ found, h.Implemented world (h.lineage source) i)
      ∧ (∀ r ∈ h.lineage source, ∀ i ∈ h.interfacesOf r, i ∈ found)
      ∧ ∀ i ∈ found, ∀ j ∈ h.interfacesOf i, j ∈ found := by
  have hstart := InterfaceSearch.searches_ofPending hw fun r hr => (hw.lineage hs r hr).1
  -- Only interfaces of the table are found, so that some number of visits is enough.
  obtain ⟨n, hends⟩ : ∃ n, (h.visits (h.lineage source) n).pending = [] := by
    refine ⟨_, hstart.recorded.run_ends (h.interfaces.map (·.2.fullName)) (fun m i hi => ?_) le_rfl⟩
    obtain ⟨entry, hentry, rfl⟩ := List.mem_map.mp ((hstart.run hw m).implemented (.inr hi)).listed
    exact List.mem_map_of_mem hentry
  have hsearch : InterfaceSearch.Searches h world (h.lineage source)
      (h.visits (h.lineage source) n) := hstart.run hw n
  have hholds : ∀ {i}, (h.visits (h.lineage source) n).Holds i →
      i ∈ (h.visits (h.lineage source) n).found.reverse := by
    rintro i (hi | hi)
    · rw [hends] at hi
      cases hi
    · exact List.mem_reverse.mpr hi
  exact ⟨_, reachableInterfaces?_of_visits hends,
    fun i hi => hsearch.implemented (.inr (List.mem_reverse.mp hi)),
    fun r hr i hi => hholds (hsearch.start hr hi),
    fun i hi j hj => hholds (hsearch.closed (List.mem_reverse.mp hi) hj)⟩

theorem Definitional.mem_of_reaches (hs : world source) {found : List Ty}
    (himplemented : ∀ i ∈ found, h.Implemented world (h.lineage source) i)
    (hstart : ∀ r ∈ h.lineage source, ∀ i ∈ h.interfacesOf r, i ∈ found)
    (hclosed : ∀ i ∈ found, ∀ j ∈ h.interfacesOf i, j ∈ found)
    (hreach : Relation.ReflTransGen h.Extends source target) :
    target ∈ h.lineage source ∨ target ∈ found := by
  induction hreach with
  | refl => exact .inl List.mem_cons_self
  | tail _ hedge ih =>
    rcases ih with hlineage | hfound
    · rcases hedge with hbase | hinterface
      · exact .inl (List.mem_cons_of_mem _ ((hw.ends hs).mem_basesUpTo hlineage hbase))
      · exact .inr (hstart _ hlineage _ hinterface)
    · rcases hedge with hbase | hinterface
      · -- No interface has a base.
        rw [(himplemented _ hfound).baseless] at hbase
        cases hbase
      · exact .inr (hclosed _ hfound _ hinterface)

theorem Definitional.inBases_iff (hs : world source) (ht : world target) :
    h.inBases source target false = true ↔ target ∈ h.baseChain source := by
  have hsame : ∀ b ∈ h.baseChain source, h.equal b target false = true ↔ b = target :=
    fun b hb => hw.same_iff (hw.basesUpTo hs b hb).1 ht
  rw [inBases, List.any_eq_true]
  constructor
  · rintro ⟨b, hb, hequal⟩
    rwa [(hsame b hb).mp hequal] at hb
  · intro hmem
    exact ⟨target, hmem, (hsame target hmem).mpr rfl⟩

theorem Definitional.implements_iff (ht : world target) {found : List Ty}
    (hfound : h.reachableInterfaces? (h.lineage source) = some found)
    (himplemented : ∀ i ∈ found, h.Implemented world (h.lineage source) i) :
    h.implements target source = true ↔ target ∈ found := by
  have hsame : ∀ i ∈ found, (h.same target i || h.inBases i target false) = true ↔ target = i := by
    intro i hi
    have hchain : h.baseChain i = [] := by
      rw [baseChain, maxBaseDepth, Hierarchy.basesUpTo, (himplemented i hi).baseless]
    rw [inBases, hchain, List.any_nil, Bool.or_false]
    exact hw.same_iff ht (himplemented i hi).ofWorld
  rw [Hierarchy.lineage] at hfound
  rw [implements, hfound, Option.any_some, List.any_eq_true]
  constructor
  · rintro ⟨i, hi, hequal⟩
    rwa [(hsame i hi).mp hequal]
  · intro hmem
    exact ⟨target, hmem, (hsame target hmem).mpr rfl⟩

end

theorem strip_and_dereference (ht : target.IsPlainDefinition) :
    target.strip = target ∧ target.dereference = (target, 0) := by
  have hdefinition := ht.definition
  cases target with
  | named _ | nested _ _ => exact ⟨rfl, rfl⟩
  | _ => cases hdefinition

theorem adaptsTo_definition (hs : source.IsPlainDefinition) : h.adaptsTo target source = false := by
  have hdefinition := hs.definition
  cases source with
  | named _ | nested _ _ => rfl
  | _ => cases hdefinition

theorem Definitional.isAssignable_iff (hw : h.Definitional world) (ht : world target)
    (hs : world source) : h.isAssignable target source = true
      ↔ target = h.core.object ∨ Relation.ReflTransGen h.Extends source target := by
  obtain ⟨hstripTarget, htarget⟩ := strip_and_dereference (hw.definition ht)
  obtain ⟨hstripSource, -⟩ := strip_and_dereference (hw.definition hs)
  have hreferent : h.sameReferent target source = false := by simp [sameReferent, htarget]
  obtain ⟨found, hfound, himplemented, hstart, hclosed⟩ := hw.exists_found hs
  rw [isAssignable, isDirectlyAssignable, hstripTarget, hstripSource, hreferent,
    h.adaptsTo_definition (hw.definition hs)]
  simp only [Bool.or_false, Bool.or_eq_true, isObject, hw.same_iff ht hs, hw.same_iff ht hw.object,
    hw.inBases_iff hs ht, hw.implements_iff ht hfound himplemented]
  constructor
  · rintro (((rfl | hobject) | hbase) | hinterface)
    · exact .inr .refl
    · exact .inl hobject
    · exact .inr (hw.lineage hs target (List.mem_cons_of_mem _ hbase)).2
    · obtain ⟨r, hr, hreach⟩ := (himplemented target hinterface).reached
      exact .inr ((hw.lineage hs r hr).2.trans hreach)
  · rintro (hobject | hreach)
    · exact .inl (.inl (.inr hobject))
    · rcases hw.mem_of_reaches hs himplemented hstart hclosed hreach with hlineage | hinterface
      · rcases List.mem_cons.mp hlineage with hsame | hbase
        · exact .inl (.inl (.inl hsame))
        · exact .inl (.inr hbase)
      · exact .inr hinterface

/-- In a world of definitions the search for interfaces ends, and the first question about two types
is answered by whether the target is the object type or is reached from the source along base types
and interfaces. -/
theorem assignable_iff_reaches (hw : h.Definitional world) (ht : world target)
    (hs : world source) :
    (h.reachableInterfaces? (source :: h.baseChain source)).isSome = true
      ∧ ((AssignableMemo.empty.ask h target source).1 = true
          ↔ target = h.core.object ∨ Relation.ReflTransGen h.Extends source target) := by
  obtain ⟨found, hfound, -⟩ := hw.exists_found hs
  rw [Hierarchy.lineage] at hfound
  exact ⟨by rw [hfound, Option.isSome_some], hw.isAssignable_iff ht hs⟩

/-! ### Interfaces that extend each other -/

/-- A definition of the program. -/
def programDefinition (id : Nat) (name : String) (category : Category) : Ty :=
  .named (.plain id "App" name (.ofFile "App") category)

def shapeClass : Ty :=
  programDefinition 70 "Shape" .classType

def squareClass : Ty :=
  programDefinition 71 "Square" .classType

def measuredInterface : Ty :=
  programDefinition 72 "IMeasured" .interfaceType

def comparableInterface : Ty :=
  programDefinition 73 "IComparable" .interfaceType

/-- Squares are shapes and are measured. The two interfaces extend each other. -/
def shapes : Hierarchy :=
  let core := Hierarchy.ofCore .standard
  { core with
    bases := core.bases ++ [(70, core.core.object), (71, shapeClass)]
    interfaces := core.interfaces
      ++ [(71, measuredInterface), (72, comparableInterface), (73, measuredInterface)] }

/-- The types of the hierarchy of shapes. -/
def shapeTypes : List Ty :=
  [shapes.core.object, shapeClass, squareClass, measuredInterface, comparableInterface]

theorem definitional_shapes : shapes.Definitional (· ∈ shapeTypes) where
  definition := by
    have hboth : ∀ t ∈ shapeTypes, t.isDefinition = true ∧ t.hasDefinedOwners = true := by decide
    exact fun t ht => ⟨(hboth t ht).1, (hboth t ht).2⟩
  object := List.mem_cons_self
  names := by
    intro t u ht hu hname
    have hnodup : (shapeTypes.map Ty.fullName).Nodup := by decide +kernel
    exact List.inj_on_of_nodup_map hnodup ht hu hname
  base := by
    intro t base ht hbase
    simp only [shapeTypes, List.mem_cons, List.not_mem_nil, or_false] at ht
    rcases ht with rfl | rfl | rfl | rfl | rfl
    · cases hbase
    · cases hbase
      exact List.mem_cons_self
    · cases hbase
      exact List.mem_cons_of_mem _ List.mem_cons_self
    · cases hbase
    · cases hbase
  ends := by
    intro t ht
    simp only [shapeTypes, List.mem_cons, List.not_mem_nil, or_false] at ht
    rcases ht with rfl | rfl | rfl | rfl | rfl
    · exact .root rfl
    · exact .derived rfl (.root rfl)
    · exact .derived rfl (.derived rfl (.root rfl))
    · exact .root rfl
    · exact .root rfl
  interface := by
    intro t i ht hi
    simp only [shapeTypes, List.mem_cons, List.not_mem_nil, or_false] at ht
    have hlists : ∀ u, shapes.interfacesOf t = [u] → i = u := by
      intro u hu
      rw [hu] at hi
      exact List.mem_singleton.mp hi
    rcases ht with rfl | rfl | rfl | rfl | rfl
    · cases hi
    · cases hi
    · cases hlists measuredInterface rfl
      exact ⟨by simp [shapeTypes], rfl⟩
    · cases hlists comparableInterface rfl
      exact ⟨by simp [shapeTypes], rfl⟩
    · cases hlists measuredInterface rfl
      exact ⟨by simp [shapeTypes], rfl⟩

/-- A square is stored as what the interface that it lists extends, and a shape is not. -/
theorem square_assignable :
    (shapes.reachableInterfaces? (squareClass :: shapes.baseChain squareClass)).isSome = true
      ∧ (AssignableMemo.empty.ask shapes comparableInterface squareClass).1 = true
      ∧ (AssignableMemo.empty.ask shapes comparableInterface shapeClass).1 = false
      ∧ ¬ Relation.ReflTransGen shapes.Extends shapeClass comparableInterface := by
  have hsquare : squareClass ∈ shapeTypes := by simp [shapeTypes]
  have hshape : shapeClass ∈ shapeTypes := by simp [shapeTypes]
  have hcomparable : comparableInterface ∈ shapeTypes := by simp [shapeTypes]
  obtain ⟨hends, hreaches⟩ := assignable_iff_reaches definitional_shapes hcomparable hsquare
  obtain ⟨-, hshapes⟩ := assignable_iff_reaches definitional_shapes hcomparable hshape
  have hno : (AssignableMemo.empty.ask shapes comparableInterface shapeClass).1 = false := by
    have hdirectly : shapes.isDirectlyAssignable comparableInterface shapeClass = false := by
      decide +kernel
    have hinterfaces : shapes.implements comparableInterface shapeClass = false :=
      implements_of_no_interfaces (by decide +kernel)
    exact Bool.or_eq_false_iff.mpr ⟨hdirectly, hinterfaces⟩
  refine ⟨hends, hreaches.mpr (.inr ?_), hno, fun hreach => ?_⟩
  · have hlists : measuredInterface ∈ shapes.interfacesOf squareClass :=
      List.mem_singleton.mpr rfl
    have hextends : comparableInterface ∈ shapes.interfacesOf measuredInterface :=
      List.mem_singleton.mpr rfl
    exact .head (.inr hlists) (.single (.inr hextends))
  · rw [hshapes.mpr (.inr hreach)] at hno
    cases hno

end Hierarchy

end ScriptLowering
