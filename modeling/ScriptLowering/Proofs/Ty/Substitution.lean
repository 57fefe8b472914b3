import ScriptLowering.Proofs.Ty.World

/-!
# Substitution and derivation

The base chain and the interfaces of a generic instance are made by putting its arguments into what
its definition lists. That may be done before or after other arguments are put into the instance
(`Hierarchy.derivation_commutes`), if what a definition lists mentions its own parameters only, so
that all of them are replaced at once. It holds also where the other arguments are put for the
parameters of that very definition.
-/

namespace ScriptLowering

namespace Ty

/-! ### Substitution into arguments -/

mutual

/-- The parameters that arguments may be put for, by the names of their owners and their positions.
Modifiers, enclosing types and owners are left alone by substitution, and so are the parameters in
them. -/
def places : Ty → List (String × Nat)
  | array element _ | byRef element | pointer element | modified element _ _ | pinned element =>
    element.places
  | inst _ arguments => placesAll arguments
  | typeParam owner position _ => [(owner.fullName, position)]
  | functionPointer result parameters => result.places ++ placesAll parameters
  | named _ | nested _ _ | methodParam .. => []

/-- The parameters of some types that arguments may be put for. -/
def placesAll : List Ty → List (String × Nat)
  | [] => []
  | t :: ts => t.places ++ placesAll ts

end

/-- A type that mentions only parameters of the type called `owner`, at positions below `arity`. -/
def MentionsOnly (owner : String) (arity : Nat) (t : Ty) : Prop :=
  ∀ p ∈ t.places, p.1 = owner ∧ p.2 < arity

instance (owner : String) (arity : Nat) (t : Ty) : Decidable (t.MentionsOnly owner arity) :=
  inferInstanceAs (Decidable (∀ p ∈ t.places, p.1 = owner ∧ p.2 < arity))

theorem places_of_mentionsOnly_zero {owner : String} {t : Ty} (ht : t.MentionsOnly owner 0) :
    t.places = [] :=
  List.eq_nil_iff_forall_not_mem.mpr fun p hp => Nat.not_lt_zero _ (ht p hp).2

theorem substituteForList_eq_map (owner : String) (arguments ts : List Ty) :
    substituteForList owner arguments ts = ts.map (substituteFor owner arguments) := by
  induction ts with
  | nil => rfl
  | cons t ts ih => rw [substituteForList, ih, List.map_cons]

section

variable {owner o : String} {arguments more : List Ty}

mutual

theorem substituteFor_substituteFor : ∀ {t : Ty}, t.MentionsOnly owner arguments.length →
    (t.substituteFor owner arguments).substituteFor o more
      = t.substituteFor owner (arguments.map (substituteFor o more))
  | named _, _ | nested _ _, _ | methodParam _ _ _ _ _, _ => by simp only [substituteFor]
  | array element _, ht => by
    simp [substituteFor, arrayOf, substituteFor_substituteFor (t := element) ht]
  | byRef element, ht | pointer element, ht | pinned element, ht | modified element _ _, ht => by
    simp [substituteFor, substituteFor_substituteFor (t := element) ht]
  | inst _ inner, ht => by
    simp [substituteFor, substituteForList_substituteForList (l := inner) ht]
  | functionPointer result parameters, ht => by
    obtain ⟨hresult, hparameters⟩ := List.forall_mem_append.mp ht
    simp [substituteFor, substituteFor_substituteFor hresult,
      substituteForList_substituteForList hparameters]
  | typeParam _ _ _, ht => by
    obtain ⟨howner, hposition⟩ := List.forall_mem_singleton.mp ht
    simp only at howner hposition
    simp [substituteFor, howner, hposition]

theorem substituteForList_substituteForList : ∀ {l : List Ty},
    (∀ p ∈ placesAll l, p.1 = owner ∧ p.2 < arguments.length) →
      substituteForList o more (substituteForList owner arguments l)
        = substituteForList owner (arguments.map (substituteFor o more)) l
  | [], _ => rfl
  | t :: ts, hts => by
    obtain ⟨ht, hrest⟩ := List.forall_mem_append.mp hts
    simp [substituteForList, substituteFor_substituteFor ht,
      substituteForList_substituteForList hrest]

end

/-- A type with every array of at least one dimension. Nothing is put for any parameter. -/
def ranked (t : Ty) : Ty :=
  t.substituteFor "" []

mutual

theorem substituteFor_of_closed : ∀ {t : Ty}, t.places = [] → t.substituteFor o more = t.ranked
  | named _, _ | nested _ _, _ | methodParam _ _ _ _ _, _ => by simp only [ranked, substituteFor]
  | array element _, ht | byRef element, ht | pointer element, ht | pinned element, ht
  | modified element _ _, ht => by
    simp only [ranked, substituteFor, substituteFor_of_closed (t := element) ht]
  | inst _ inner, ht => by
    simp only [ranked, substituteFor, substituteForList_of_closed (l := inner) ht]
  | functionPointer _ _, ht => by
    obtain ⟨hresult, hparameters⟩ := List.append_eq_nil_iff.mp ht
    simp only [ranked, substituteFor, substituteFor_of_closed hresult,
      substituteForList_of_closed hparameters]

theorem substituteForList_of_closed : ∀ {l : List Ty}, placesAll l = [] →
    substituteForList o more l = substituteForList "" [] l
  | [], _ => rfl
  | _ :: _, hts => by
    obtain ⟨ht, hrest⟩ := List.append_eq_nil_iff.mp hts
    simp only [substituteForList, substituteFor_of_closed ht, substituteForList_of_closed hrest,
      ranked]

end

variable {t u : Ty}

theorem ranked_substituteFor_of_closed (ht : t.places = []) :
    (t.substituteFor o more).ranked = t.ranked := by
  rw [substituteFor_of_closed ht, ranked, ranked, substituteFor_substituteFor]
  · rfl
  · rw [MentionsOnly, ht]
    exact fun _ hp => by cases hp

mutual

theorem ranked_ranked : ∀ t : Ty, t.ranked.ranked = t.ranked
  | named _ | nested _ _ | methodParam _ _ _ _ _ | typeParam _ _ _ => by simp [ranked, substituteFor]
  | array element _ | byRef element | pointer element | pinned element | modified element _ _ => by
    have ih := ranked_ranked element
    simp only [ranked] at ih
    simp [ranked, substituteFor, arrayOf, ih]
  | inst _ inner => by
    simp only [ranked, substituteFor, rankedList_rankedList inner]
  | functionPointer result parameters => by
    have ih := ranked_ranked result
    simp only [ranked] at ih
    simp only [ranked, substituteFor, ih, rankedList_rankedList parameters]

theorem rankedList_rankedList : ∀ l : List Ty,
    substituteForList "" [] (substituteForList "" [] l) = substituteForList "" [] l
  | [] => rfl
  | t :: ts => by
    have ih := ranked_ranked t
    simp only [ranked] at ih
    simp only [substituteForList, ih, rankedList_rankedList ts]

end

end

/-! ### Applied definitions -/

/-- The number of parameters of the definition. -/
def arity (t : Ty) : Nat :=
  (t.definition?.map (·.genericParameters.length)).getD 0

/-- A type over some definitions that stands for itself: a definition without parameters, or one
that is applied to an argument for each. -/
inductive Applied (world : Ty → Prop) : Ty → Prop where
  | definition {generic : Ty} : world generic → generic.isDefinition = true → generic.arity = 0 →
    Applied world generic
  | instance {generic : Ty} {arguments : List Ty} : world generic → generic.isDefinition = true →
    arguments.length = generic.arity → Applied world (.inst generic arguments)

theorem substituteFor_of_isDefinition {t : Ty} (ht : t.isDefinition = true) (owner : String)
    (arguments : List Ty) : t.substituteFor owner arguments = t := by
  cases t with
  | named _ | nested _ _ => simp only [substituteFor]
  | _ => cases ht

theorem Applied.substituteFor {world : Ty → Prop} {t : Ty} (ht : t.Applied world) (owner : String)
    (arguments : List Ty) : (t.substituteFor owner arguments).Applied world := by
  cases ht with
  | definition hworld hdefinition harity =>
    rw [substituteFor_of_isDefinition hdefinition]
    exact .definition hworld hdefinition harity
  | «instance» hworld hdefinition hlength =>
    rw [Ty.substituteFor, substituteForList_eq_map]
    exact .instance hworld hdefinition (by rw [List.length_map, hlength])

end Ty

namespace Hierarchy

variable {h : Hierarchy} {world : Ty → Prop} {generic : Ty} {arguments : List Ty}

/-- Definitions that list applied definitions only, and mention no parameters there but their own. -/
def ListsOwn (world : Ty → Prop) (listed : Ty → List Ty) : Prop :=
  ∀ generic, world generic → ∀ t ∈ listed generic,
    t.Applied world ∧ t.MentionsOnly generic.fullName generic.arity

theorem baseOf?_inst (hgeneric : generic.isDefinition = true) :
    h.baseOf? (.inst generic arguments) = (h.baseOf? generic).map (·.substitute generic arguments) := by
  cases generic with
  | named _ | nested _ _ => rfl
  | _ => cases hgeneric

theorem interfacesOf_inst (hgeneric : generic.isDefinition = true) :
    h.interfacesOf (.inst generic arguments)
      = (h.interfacesOf generic).map (·.substitute generic arguments) := by
  cases generic with
  | named _ | nested _ _ => rfl
  | _ => cases hgeneric

section

variable {o : String} {more : List Ty} {t b : Ty}
  (hbases : ListsOwn world fun generic => (h.baseOf? generic).toList)
include hbases

theorem applied_baseOf? (ht : t.Applied world) (hb : h.baseOf? t = some b) : b.Applied world := by
  cases ht with
  | definition hworld _ _ => exact (hbases t hworld b (by simp [hb])).1
  | @«instance» generic _ hworld hdefinition _ =>
    rw [baseOf?_inst hdefinition] at hb
    obtain ⟨base, hbase, rfl⟩ := Option.map_eq_some_iff.mp hb
    exact (hbases generic hworld base (by simp [hbase])).1.substituteFor _ _

theorem map_baseOf?_substituteFor {f : Ty → Ty} (ht : t.Applied world)
    (hf : ∀ t, world t → ∀ b ∈ h.baseOf? t, b.places = [] → f (b.substituteFor o more) = f b) :
    (h.baseOf? (t.substituteFor o more)).map f
      = (h.baseOf? t).map fun b => f (b.substituteFor o more) := by
  cases ht with
  | definition hworld hdefinition harity =>
    -- A definition is itself, and its base has no parameters.
    rw [Ty.substituteFor_of_isDefinition hdefinition]
    refine Option.map_congr fun b hb => (hf t hworld b hb ?_).symm
    have hown := (hbases t hworld b (Option.mem_toList.mpr hb)).2
    rw [harity] at hown
    exact Ty.places_of_mentionsOnly_zero hown
  | @«instance» generic arguments hworld hdefinition hlength =>
    -- The base is that of the definition, with the arguments put into it.
    rw [Ty.substituteFor, Ty.substituteForList_eq_map, baseOf?_inst hdefinition,
      baseOf?_inst hdefinition, Option.map_map, Option.map_map]
    refine Option.map_congr fun b hb => congrArg f ?_
    have hown := (hbases generic hworld b (Option.mem_toList.mpr hb)).2
    rw [← hlength] at hown
    exact (Ty.substituteFor_substituteFor hown).symm

theorem ranked_basesUpTo : ∀ (n : Nat) {t : Ty}, t.Applied world → ∀ (o : String) (more : List Ty),
    (h.basesUpTo n (t.substituteFor o more)).map Ty.ranked
      = (h.basesUpTo n t).map fun b => (b.substituteFor o more).ranked
  | 0, _, _, _, _ => rfl
  | n + 1, t, ht, o, more => by
    have hbase : (h.baseOf? (t.substituteFor o more)).map Ty.ranked = _ :=
      h.map_baseOf?_substituteFor hbases ht fun _ _ _ _ => Ty.ranked_substituteFor_of_closed
    rcases hb : h.baseOf? t with _ | b <;> rw [hb] at hbase
    · simp only [basesUpTo, hb, Option.map_eq_none_iff.mp hbase, List.map_nil]
    · obtain ⟨c, hc, hread⟩ := Option.map_eq_some_iff.mp hbase
      have happlied := h.applied_baseOf? hbases ht hb
      -- Types that read the same have bases that read the same.
      have hsame (u : Ty) (hu : u.Applied world) :
          (h.basesUpTo n u.ranked).map Ty.ranked = (h.basesUpTo n u).map Ty.ranked :=
        (ranked_basesUpTo n hu "" []).trans (List.map_congr_left fun b _ => b.ranked_ranked)
      have hrest : (h.basesUpTo n c).map Ty.ranked
          = (h.basesUpTo n (b.substituteFor o more)).map Ty.ranked := by
        rw [← hsame c (h.applied_baseOf? hbases (ht.substituteFor o more) hc), hread,
          hsame _ (happlied.substituteFor o more)]
      simp only [basesUpTo, hb, hc, List.map_cons, hread, hrest, ranked_basesUpTo n happlied o more]

theorem basesUpTo_substituteFor (hranked : ∀ t, world t → ∀ b ∈ h.baseOf? t, b.ranked = b) :
    ∀ (n : Nat) {t : Ty}, t.Applied world →
      h.basesUpTo n (t.substituteFor o more) = (h.basesUpTo n t).map (Ty.substituteFor o more)
  | 0, _, _ => rfl
  | n + 1, t, ht => by
    have hbase : (h.baseOf? (t.substituteFor o more)).map id = _ :=
      h.map_baseOf?_substituteFor hbases ht fun t ht b hb hclosed =>
        (Ty.substituteFor_of_closed hclosed).trans (hranked t ht b hb)
    rcases hb : h.baseOf? t with _ | b <;> simp only [hb, Option.map_id, id_eq] at hbase
    · simp only [basesUpTo, hb, hbase, Option.map_none, List.map_nil]
    · simp only [basesUpTo, hb, hbase, Option.map_some, List.map_cons,
        basesUpTo_substituteFor hranked n (h.applied_baseOf? hbases ht hb)]

end

theorem interfacesOf_substituted (hgeneric : generic.isDefinition = true)
    (hworld : world generic) (hlength : arguments.length = generic.arity)
    (hinterfaces : ListsOwn world h.interfacesOf) (o : String) (more : List Ty) :
    h.interfacesOf ((Ty.inst generic arguments).substituteFor o more)
      = (h.interfacesOf (.inst generic arguments)).map (Ty.substituteFor o more) := by
  rw [Ty.substituteFor, Ty.substituteForList_eq_map, interfacesOf_inst hgeneric,
    interfacesOf_inst hgeneric, List.map_map]
  refine List.map_congr_left fun i hi => ?_
  have hown := (hinterfaces generic hworld i hi).2
  rw [← hlength] at hown
  exact (Ty.substituteFor_substituteFor hown).symm

/-- Where each definition has no base, or one that is an applied definition and mentions its own
parameters only, putting arguments into an instance and taking its base chain commute: outright if
listed bases have no arrays without dimensions, and else up to them. Putting arguments into it and
taking its interfaces commute if the same holds of the interfaces. -/
theorem derivation_commutes (hdefinitions : ∀ t, world t → t.isDefinition = true)
    (hbases : ListsOwn world fun generic => (h.baseOf? generic).toList)
    (hworld : world generic) (hlength : arguments.length = generic.arity) (o : Ty)
    (more : List Ty) :
    ((∀ t, world t → ∀ b ∈ h.baseOf? t, b.ranked = b) →
        h.baseChain ((Ty.inst generic arguments).substitute o more)
          = (h.baseChain (.inst generic arguments)).map (·.substitute o more))
      ∧ (h.baseChain ((Ty.inst generic arguments).substitute o more)).map Ty.ranked
        = ((h.baseChain (.inst generic arguments)).map (·.substitute o more)).map Ty.ranked
      ∧ (ListsOwn world h.interfacesOf →
        h.interfacesOf ((Ty.inst generic arguments).substitute o more)
          = (h.interfacesOf (.inst generic arguments)).map (·.substitute o more)) := by
  have hdefinition := hdefinitions generic hworld
  have happlied : (Ty.inst generic arguments).Applied world := .instance hworld hdefinition hlength
  refine ⟨fun hranked => h.basesUpTo_substituteFor hbases hranked _ happlied, ?_, ?_⟩
  · rw [List.map_map]
    exact h.ranked_basesUpTo hbases _ happlied o.fullName more
  · exact fun hinterfaces =>
      h.interfacesOf_substituted hdefinition hworld hlength hinterfaces o.fullName more

/-! ### A generic class over another one -/

/-- A class with one parameter. -/
def genericClass (id : Nat) (name parameter : String) : Ty :=
  .named { Definition.plain id "App" name (.ofFile "App") .classType with
    genericParameters := [parameter] }

def boxClass : Ty :=
  genericClass 74 "Box`1" "T"

def shelfClass : Ty :=
  genericClass 75 "Shelf`1" "U"

/-- A shelf of some type is a box of arrays of it, and lists a box of it as an interface. -/
def storage : Hierarchy where
  core := .standard
  bases := [(75, .inst boxClass [.array (shelfClass.typeParamOf 0) 1])]
  interfaces := [(75, .inst boxClass [shelfClass.typeParamOf 0])]

theorem listsOwn_storage :
    ListsOwn (· ∈ [boxClass, shelfClass]) (fun generic => (storage.baseOf? generic).toList)
      ∧ ListsOwn (· ∈ [boxClass, shelfClass]) storage.interfacesOf := by
  have hbox : ∀ argument, Ty.Applied (· ∈ [boxClass, shelfClass]) (.inst boxClass [argument]) :=
    fun _ => .instance List.mem_cons_self rfl rfl
  constructor
  all_goals
    intro generic hgeneric t ht
    simp only [List.mem_cons, List.not_mem_nil, or_false] at hgeneric
    rcases hgeneric with rfl | rfl
    · cases ht
    · obtain rfl := List.mem_singleton.mp ht
      exact ⟨hbox _, by decide +kernel⟩

/-- The parameter of the shelf is an argument of the instance, and is replaced in it. -/
theorem shelf_derivation_commutes :
    storage.baseChain ((Ty.inst shelfClass [shelfClass.typeParamOf 0]).substitute shelfClass
        [Core.standard.int32]) = [.inst boxClass [.array Core.standard.int32 1]]
      ∧ storage.interfacesOf ((Ty.inst shelfClass [shelfClass.typeParamOf 0]).substitute shelfClass
        [Core.standard.int32]) = [.inst boxClass [Core.standard.int32]] := by
  have hlength : [shelfClass.typeParamOf 0].length = shelfClass.arity := rfl
  obtain ⟨hchain, -, hinterfaces⟩ :=
    derivation_commutes
      (by simp [boxClass, shelfClass, genericClass, Ty.isDefinition]) listsOwn_storage.1
      (List.mem_cons_of_mem _ List.mem_cons_self) hlength shelfClass [Core.standard.int32]
  have hranked : ∀ t ∈ [boxClass, shelfClass], ∀ b ∈ storage.baseOf? t, b.ranked = b := by
    refine List.forall_mem_cons.mpr ⟨(fun b hb => by cases hb), ?_⟩
    refine List.forall_mem_singleton.mpr fun b hb => ?_
    obtain rfl := Option.some.inj hb
    rfl
  rw [hchain hranked, hinterfaces listsOwn_storage.2]
  exact ⟨rfl, rfl⟩

end Hierarchy

end ScriptLowering
