import ScriptLowering.Proofs.Ty.Shape

/-!
# Worlds of definitions

A world is a set of definitions, named or nested, that types are made of. In an orderly world only
the core primitives carry a primitive kind, equal definitions agree on their category, and
enumerations are over integers. That does not make equal types alike in numeric matters: a value
type called as a core primitive, but without its kind, is equal to the primitive. In a faithful
world there is none, and types over it that are alike have the same numeric kind
(`Ty.Regular.numericKind?_eq`).
-/

namespace ScriptLowering

namespace Ty

/-! ### Parts -/

mutual

/-- A type and all types in it. -/
def parts : Ty → List Ty
  | named d => [.named d]
  | nested outer d => .nested outer d :: outer.parts
  | array element rank => .array element rank :: element.parts
  | byRef element => .byRef element :: element.parts
  | pointer element => .pointer element :: element.parts
  | modified element modifier required =>
    .modified element modifier required :: (element.parts ++ modifier.parts)
  | pinned element => .pinned element :: element.parts
  | inst generic arguments => .inst generic arguments :: (generic.parts ++ partsAll arguments)
  | typeParam owner position name? => [.typeParam owner position name?]
  | methodParam owner method declared position name? =>
    [.methodParam owner method declared position name?]
  | functionPointer result parameters =>
    .functionPointer result parameters :: (result.parts ++ partsAll parameters)

/-- All types in some types. -/
def partsAll : List Ty → List Ty
  | [] => []
  | t :: ts => t.parts ++ partsAll ts

end

/-- A type is one of its parts. -/
theorem mem_parts_self (t : Ty) : t ∈ t.parts := by
  cases t <;> simp [parts]

mutual

theorem isClosed_of_parts : ∀ {t : Ty}, (∀ p ∈ t.parts, p.isGenericParameter = false) →
    t.isClosed = true
  | named _, _ => rfl
  | nested outer _, h => isClosed_of_parts (t := outer) fun p hp => h p (by simp [parts, hp])
  | array element _, h | byRef element, h | pointer element, h | pinned element, h =>
    isClosed_of_parts (t := element) fun p hp => h p (by simp [parts, hp])
  | modified element modifier _, h => by
    have helement : element.isClosed = true :=
      isClosed_of_parts fun p hp => h p (by simp [parts, hp])
    have hmodifier : modifier.isClosed = true :=
      isClosed_of_parts fun p hp => h p (by simp [parts, hp])
    simp [isClosed, helement, hmodifier]
  | inst generic arguments, h => by
    have hgeneric : generic.isClosed = true :=
      isClosed_of_parts fun p hp => h p (by simp [parts, hp])
    have harguments : areClosed arguments = true :=
      areClosed_of_parts fun p hp => h p (by simp [parts, hp])
    simp [isClosed, hgeneric, harguments]
  | typeParam .., h | methodParam .., h =>
    absurd (h _ (mem_parts_self _)) (by simp [isGenericParameter])
  | functionPointer result parameters, h => by
    have hresult : result.isClosed = true :=
      isClosed_of_parts fun p hp => h p (by simp [parts, hp])
    have hparameters : areClosed parameters = true :=
      areClosed_of_parts fun p hp => h p (by simp [parts, hp])
    simp [isClosed, hresult, hparameters]

theorem areClosed_of_parts : ∀ {ts : List Ty}, (∀ p ∈ partsAll ts, p.isGenericParameter = false) →
    areClosed ts = true
  | [], _ => rfl
  | t :: ts, h => by
    have ht : t.isClosed = true := isClosed_of_parts fun p hp => h p (by simp [partsAll, hp])
    have hts : areClosed ts = true := areClosed_of_parts fun p hp => h p (by simp [partsAll, hp])
    simp [areClosed, ht, hts]

end

/-! ### Types over a world -/

/-- Whether a type is a definition, and not made of others. -/
def isDefinition : Ty → Bool
  | named _ | nested _ _ => true
  | _ => false

/-- The category of the definition of a type. -/
def category? (t : Ty) : Option Category :=
  t.definition?.map (·.category)

/-- A part of types over a world: no generic parameter and no pin, and one of the world if it is a
definition. -/
def Belongs (world : Ty → Prop) (t : Ty) : Prop :=
  match t with
  | pinned _ | typeParam .. | methodParam .. => False
  | t => t.isDefinition = true → world t

/-- A type made of definitions of a world, without generic parameters and pins. -/
def Over (world : Ty → Prop) (t : Ty) : Prop :=
  ∀ p ∈ t.parts, p.Belongs world

/-- Whether all generic instances in a type apply definitions to arguments. -/
def AppliesDefinitions (t : Ty) : Prop :=
  ∀ generic arguments, .inst generic arguments ∈ t.parts → generic.isDefinition = true

/-- A type over a world. Where the side condition `applied` holds, its instances apply
definitions. -/
structure Regular (world : Ty → Prop) (applied : Prop) (t : Ty) : Prop where
  ofWorld : t.Over world
  applies : applied → t.AppliesDefinitions

section

variable {world : Ty → Prop} {applied : Prop} {t u : Ty}

theorem Regular.of_parts (ht : t.Regular world applied) (h : u.parts ⊆ t.parts) :
    u.Regular world applied where
  ofWorld p hp := ht.ofWorld p (h hp)
  applies happlied generic arguments hp := ht.applies happlied generic arguments (h hp)

/-- Regular types are closed. -/
theorem Regular.isClosed (ht : t.Regular world applied) : t.isClosed = true := by
  refine isClosed_of_parts fun p hp => ?_
  have hbelongs := ht.ofWorld p hp
  cases p <;> first | rfl | exact hbelongs.elim

theorem Regular.mem_world (ht : t.Regular world applied) (hdefinition : t.isDefinition = true) :
    world t := by
  have hbelongs := ht.ofWorld t (mem_parts_self t)
  cases t <;> first | exact hbelongs hdefinition | cases hdefinition

variable {d : Definition}

theorem over_named (h : world (.named d)) : Over world (.named d) := by
  intro p hp
  rw [parts, List.mem_singleton] at hp
  rw [hp]
  exact fun _ => h

theorem regular_named (h : world (.named d)) : Regular world applied (.named d) where
  ofWorld := over_named h
  applies _ generic arguments hp := by simp [parts] at hp

theorem Regular.byRef (ht : t.Regular world applied) : (Ty.byRef t).Regular world applied where
  ofWorld := List.forall_mem_cons.mpr ⟨(fun h => by cases h), ht.ofWorld⟩
  applies happlied generic arguments hp :=
    ht.applies happlied generic arguments (by simpa [parts] using hp)

/-- A pointer to a regular type is regular. -/
theorem Regular.pointer (ht : t.Regular world applied) : (Ty.pointer t).Regular world applied where
  ofWorld := List.forall_mem_cons.mpr ⟨(fun h => by cases h), ht.ofWorld⟩
  applies happlied generic arguments hp :=
    ht.applies happlied generic arguments (by simpa [parts] using hp)

theorem parts_elementType? : ∀ {t u : Ty}, t.elementType? = some u → u.parts ⊆ t.parts
  | array element _, u, h | byRef element, u, h | pointer element, u, h => by
    cases h
    exact fun p hp => by simp [parts, hp]
  | modified element _ _, u, h | pinned element, u, h => by
    have ih := parts_elementType? (t := element) h
    exact fun p hp => by simp [parts, ih hp]
  | named _, _, h | nested _ _, _, h | inst _ _, _, h | typeParam _ _ _, _, h
  | methodParam _ _ _ _ _, _, h | functionPointer _ _, _, h => by cases h

theorem Regular.referent (ht : t.Regular world applied) :
    (t.elementType?.getD t).Regular world applied := by
  cases h : t.elementType? with
  | none => exact ht
  | some u => exact ht.of_parts (parts_elementType? h)

theorem definition?_mem_world : ∀ {t : Ty}, t.Over world → ∀ {d : Definition},
    t.definition? = some d → ∃ u, world u ∧ u.definition? = some d
  | named e, h, _, hd => ⟨.named e, h _ (mem_parts_self _) rfl, hd⟩
  | nested outer e, h, _, hd => ⟨.nested outer e, h _ (mem_parts_self _) rfl, hd⟩
  | inst generic _, h, _, hd =>
    definition?_mem_world (t := generic) (fun p hp => h p (by simp [parts, hp])) hd
  | array _ _, _, _, hd | byRef _, _, _, hd | pointer _, _, _, hd | modified _ _ _, _, _, hd
  | pinned _, _, _, hd | typeParam _ _ _, _, _, hd | methodParam _ _ _ _ _, _, _, hd
  | functionPointer _ _, _, _, hd => by cases hd

theorem strip_spec : ∀ {t : Ty}, t.Over world →
    t.strip.parts ⊆ t.parts ∧ t.strip.numericKind? = t.numericKind?
  | modified element _ _, h => by
    obtain ⟨hparts, hkind⟩ : element.strip.parts ⊆ element.parts ∧ _ :=
      strip_spec fun p hp => h p (by simp [parts, hp])
    exact ⟨fun p hp => by simp [parts, hparts hp], hkind⟩
  | pinned _, h => (h _ (mem_parts_self _)).elim
  | named _, _ | nested _ _, _ | array _ _, _ | byRef _, _ | pointer _, _ | inst _ _, _
  | typeParam _ _ _, _ | methodParam _ _ _ _ _, _ | functionPointer _ _, _ =>
    ⟨List.Subset.refl _, rfl⟩

end

end Ty

/-! ### Orderly and faithful worlds -/

/-- A world with the core primitives, in which only they carry a primitive kind, equal definitions
agree on their category, and enumerations are over integers. -/
structure Hierarchy.Orderly (h : Hierarchy) (world : Ty → Prop) : Prop where
  core : ∀ k, world (h.core.primitive k)
  void : world h.core.void
  primitives : ∀ t k, world t → t.primitive? = some k → h.same t (h.core.primitive k) = true
  categories : ∀ t u, world t → world u → h.same t u = true → t.category? = u.category?
  enumerations : ∀ t k, world t → t.category? = some (.enumeration k) → k.isIntegral = true

/-- An orderly world in which what is called as a core primitive carries its kind. -/
structure Hierarchy.Faithful (h : Hierarchy) (world : Ty → Prop) : Prop
    extends h.Orderly world where
  carried : ∀ t k, world t → h.same t (h.core.primitive k) = true → t.primitive? = some k

namespace Ty

variable {h : Hierarchy} {world : Ty → Prop} {applied : Prop} {t u : Ty}

theorem enumUnderlying?_eq_some_iff (ht : t.isBare = true) {k : Primitive} :
    t.enumUnderlying? = some k ↔ t.category? = some (.enumeration k) := by
  unfold enumUnderlying?
  split
  · cases ht
  · rw [category?]
    cases t.definition? with
    | none => simp
    | some d => cases hd : d.category <;> simp [hd]

section

variable (hw : h.Faithful world)
include hw

theorem Regular.primitive?_eq (ht : t.Regular world applied) (hu : u.Regular world applied)
    (hdt : t.isDefinition = true) (hdu : u.isDefinition = true) (hlike : t.Like u) :
    t.primitive? = u.primitive? := by
  -- A kind is carried over by the core primitive that both definitions are called as.
  have hsame : ∀ {a b : Ty}, a.Regular world applied → b.Regular world applied →
      a.isDefinition = true → b.isDefinition = true → a.Like b → ∀ k, a.primitive? = some k →
      b.primitive? = some k := by
    intro a b ha hb hda hdb hab k hk
    have hcore := hw.primitives a k (ha.mem_world hda) hk
    have hlike : b.Like (h.core.primitive k) :=
      hab.symm.trans ((h.same_iff_like ha.isClosed _).mp hcore)
    exact hw.carried b k (hb.mem_world hdb) ((h.same_iff_like hb.isClosed _).mpr hlike)
  apply Option.ext
  intro k
  exact ⟨hsame ht hu hdt hdu hlike k, hsame hu ht hdu hdt hlike.symm k⟩

theorem Regular.category?_eq (ht : t.Regular world applied) (hu : u.Regular world applied)
    (hdt : t.isDefinition = true) (hdu : u.isDefinition = true) (hlike : t.Like u) :
    t.category? = u.category? :=
  hw.categories t u (ht.mem_world hdt) (hu.mem_world hdu)
    ((h.same_iff_like ht.isClosed u).mpr hlike)

end

theorem numericKind?_congr (ht : t.isBare = true) (hu : u.isBare = true)
    (hprimitive : t.primitive? = u.primitive?) (hcategory : t.category? = u.category?) :
    t.numericKind? = u.numericKind? := by
  have hunderlying : t.enumUnderlying? = u.enumUnderlying? := by
    apply Option.ext
    intro k
    rw [enumUnderlying?_eq_some_iff ht, enumUnderlying?_eq_some_iff hu, hcategory]
  rw [numericKind?, numericKind?, hprimitive, hunderlying]

theorem Regular.numericKind?_eq (hw : h.Faithful world) (happlied : applied)
    (ht : t.Regular world applied) (hu : u.Regular world applied) (hlike : t.Like u) :
    t.numericKind? = u.numericKind? := by
  -- Modifiers are looked through on both sides.
  obtain ⟨hpartsT, hkindT⟩ := strip_spec ht.ofWorld
  obtain ⟨hpartsU, hkindU⟩ := strip_spec hu.ofWorld
  replace hlike : t.strip.Like u.strip := by
    unfold Like
    rw [shape_strip, shape_strip]
    exact hlike
  have hbareT := isBare_strip t
  have hbareU := isBare_strip u
  rw [← hkindT, ← hkindU]
  replace ht := ht.of_parts hpartsT
  replace hu := hu.of_parts hpartsU
  generalize t.strip = t at *
  generalize u.strip = u at *
  -- What is left are definitions, instances of definitions, or no numbers.
  have hshape : t.shape false = u.shape false := hlike
  cases t <;> cases u <;> simp only [shape, reduceCtorEq] at hshape <;> first
    | rfl
    | cases hbareT; done
    | cases hbareU; done
    | skip
  case named.named =>
    exact numericKind?_congr rfl rfl (ht.primitive?_eq hw hu rfl rfl hlike)
      (ht.category?_eq hw hu rfl rfl hlike)
  case nested.nested =>
    exact numericKind?_congr rfl rfl (ht.primitive?_eq hw hu rfl rfl hlike)
      (ht.category?_eq hw hu rfl rfl hlike)
  case inst.inst generic _ generic' _ =>
    -- An instance carries no primitive kind, so only the category of what it applies counts.
    have hdT := ht.applies happlied _ _ (mem_parts_self _)
    have hdU := hu.applies happlied _ _ (mem_parts_self _)
    have hgT : generic.Regular world applied := ht.of_parts fun p hp => by simp [parts, hp]
    have hgU : generic'.Regular world applied := hu.of_parts fun p hp => by simp [parts, hp]
    have hgeneric : generic.Like generic' := (Ty.inst.inj hshape).1
    have hcategory : generic.category? = generic'.category? :=
      hgT.category?_eq hw hgU hdT hdU hgeneric
    exact numericKind?_congr rfl rfl rfl hcategory

theorem primitive?_eq_none_of_enumeration (hw : h.Orderly world) {k : Primitive} :
    ∀ {t : Ty}, t.Over world → t.enumUnderlying? = some k → t.primitive? = none
  | modified element _ _, ht, hk => by
    have helement : element.Over world := fun p hp => ht p (by simp [parts, hp])
    show element.primitive? = none
    exact primitive?_eq_none_of_enumeration hw helement hk
  | named d, ht, hk | nested outer d, ht, hk => by
    have hmember := ht _ (mem_parts_self _) rfl
    have hcategory := (enumUnderlying?_eq_some_iff rfl).mp hk
    cases hprimitive : d.primitive? with
    | none => exact hprimitive
    | some p =>
      -- It would be the same as a core primitive, which is a value type.
      have hsame := hw.primitives _ p hmember hprimitive
      have hcore : some Category.valueType = some (.enumeration k) :=
        (hw.categories _ _ hmember (hw.core p) hsame).symm.trans hcategory
      cases hcore
  | pinned _, _, hk => by cases hk
  | array _ _, _, _ | byRef _, _, _ | pointer _, _, _ | inst _ _, _, _ | typeParam _ _ _, _, _
  | methodParam _ _ _ _ _, _, _ | functionPointer _ _, _, _ => rfl

end Ty

/-! ### Types with kinds -/

/-- A set of types, with the core primitives, in which equal types have one numeric kind, and
enumerations have that of their integers. -/
structure Hierarchy.KindsAgree (h : Hierarchy) (types : Ty → Prop) : Prop where
  core : ∀ k, types (h.core.primitive k)
  equal : ∀ t u, types t → types u → h.equal t u true = true → t.numericKind? = u.numericKind?
  enumerations : ∀ t k, types t → t.enumUnderlying? = some k → t.numericKind? = some k

variable {h : Hierarchy}

theorem Hierarchy.Faithful.kindsAgree {world : Ty → Prop} (hw : h.Faithful world) :
    h.KindsAgree (Ty.Regular world True) where
  core k := Ty.regular_named (hw.core k)
  equal _ _ ht hu heq := ht.numericKind?_eq hw trivial hu (h.like_of_equal ht.isClosed heq)
  enumerations t k ht hk := by
    have hnone := Ty.primitive?_eq_none_of_enumeration hw.toOrderly ht.ofWorld hk
    rw [Ty.numericKind?, hnone, hk]
    rfl

/-! ### Listed worlds -/

/-- Every kind is listed. -/
theorem Primitive.mem_all (k : Primitive) : k ∈ Primitive.all := by
  cases k <;> decide

/-- The core primitives, the type without values, and some more definitions. -/
def Ty.primitivesAnd (more : List Ty) : List Ty :=
  Primitive.all.map Core.standard.primitive ++ Core.standard.void :: more

variable {more : List Ty}

theorem Ty.mem_primitivesAnd {t : Ty} (ht : t ∈ more) : t ∈ Ty.primitivesAnd more :=
  List.mem_append_right _ (List.mem_cons_of_mem _ ht)

theorem Hierarchy.orderly_primitivesAnd (hcore : h.core = .standard)
    (hprimitives : ∀ t ∈ Ty.primitivesAnd more, ∀ k ∈ Primitive.all, t.primitive? = some k →
      h.same t (h.core.primitive k) = true)
    (hcategories : ∀ t ∈ Ty.primitivesAnd more, ∀ u ∈ Ty.primitivesAnd more, h.same t u = true →
      t.category? = u.category?)
    (henumerations : ∀ t ∈ Ty.primitivesAnd more, ∀ k ∈ Primitive.all,
      t.category? = some (.enumeration k) → k.isIntegral = true) :
    h.Orderly (· ∈ Ty.primitivesAnd more) where
  core k := by
    rw [hcore]
    exact List.mem_append_left _ (List.mem_map_of_mem k.mem_all)
  void := by
    rw [hcore]
    exact List.mem_append_right _ List.mem_cons_self
  primitives t k ht := hprimitives t ht k k.mem_all
  categories t u ht hu := hcategories t ht u hu
  enumerations t k ht := henumerations t ht k k.mem_all

theorem Hierarchy.faithful_primitivesAnd (horderly : h.Orderly (· ∈ Ty.primitivesAnd more))
    (hcarried : ∀ t ∈ Ty.primitivesAnd more, ∀ k ∈ Primitive.all,
      h.same t (h.core.primitive k) = true → t.primitive? = some k) :
    h.Faithful (· ∈ Ty.primitivesAnd more) where
  toOrderly := horderly
  carried t k ht := hcarried t ht k k.mem_all

end ScriptLowering
