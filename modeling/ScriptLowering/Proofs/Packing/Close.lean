import ScriptLowering.Proofs.Lowering.Vocabulary

/-!
# Types that lowering does not tell apart

When an array is taken for a packed array, its type changes, and so do types made of it. Lowering asks
of a type whether it is a reference, a pointer, a number, nullable or text; to a type that is none of
these it does the same as to any other such type, as long as elements are not looked at. Such types
are dull (`Hierarchy.Dull`): arrays are, and packed arrays are.
-/

namespace ScriptLowering

/-! ### Dull types -/

/-- A type that is neither an address nor a number, nor nullable, nor text. -/
structure Hierarchy.Dull (h : Hierarchy) (t : Ty) : Prop where
  isByRef : t.isByRef = false
  isPointer : t.isPointer = false
  numericKind? : t.numericKind? = none
  isNullable : t.isNullable = false
  isString : h.isString t = false

namespace Ty

theorem strip_of_agrees_named {related : Ty → Ty → Bool} {d : Definition} :
    ∀ {t : Ty}, agrees related t false (.named d) = true → ∃ d', t.strip = .named d'
  | named d', _ => ⟨d', rfl⟩
  | modified element _ _, h | pinned element, h => by
    simp only [agrees, Bool.false_eq_true, if_false] at h
    exact strip_of_agrees_named (t := element) h
  | typeParam .., h | methodParam .., h => by simp [agrees, strip, expandedParameter?] at h
  | nested .., h | array .., h | byRef _, h | pointer _, h | inst .., h | functionPointer .., h => by
    simp [agrees, strip] at h

/-- An array is an array under modifiers. -/
theorem strip_of_isArray : ∀ {t : Ty}, t.isArray = true → ∃ element rank, t.strip = .array element rank
  | array element rank, _ => ⟨element, rank, rfl⟩
  | modified element _ _, h | pinned element, h => strip_of_isArray (t := element) h
  | named _, h | nested .., h | byRef _, h | pointer _, h | inst .., h | typeParam .., h
  | methodParam .., h | functionPointer .., h => by cases h

theorem isArray_of_isPackedArray {t : Ty} (h : t.isPackedArray = true) : t.isArray = false := by
  cases t <;> first | rfl | cases h

/-- An array is of no numeric kind. -/
theorem numericKind?_of_isArray {t : Ty} (h : t.isArray = true) : t.numericKind? = none := by
  have hprimitive : t.primitive? = none := by
    unfold isArray at h
    fun_induction arrayRank? t <;> simp_all [primitive?]
  have henum : t.enumUnderlying? = none := by
    clear hprimitive
    unfold isArray at h
    fun_induction enumUnderlying? t <;> simp_all [arrayRank?]
    cases ‹Ty› <;> simp_all [arrayRank?, definition?]
  simp [numericKind?, hprimitive, henum]

end Ty

namespace Hierarchy

variable {h : Hierarchy} {t : Ty}

/-- Text is a definition, under modifiers. -/
theorem strip_of_isString (ht : h.isString t = true) : ∃ d, t.strip = .named d := by
  unfold isString same equal at ht
  generalize maxCrossings = crossings at ht
  cases crossings with
  | zero => exact Ty.strip_of_agrees_named (h.equalUpTo_zero t false _ ▸ ht)
  | succ n => exact Ty.strip_of_agrees_named (h.equalUpTo_succ n t false _ ▸ ht)

theorem isString_eq_false (ht : ∀ d, t.strip ≠ .named d) : h.isString t = false := by
  cases hstring : h.isString t with
  | false => rfl
  | true =>
    obtain ⟨d, hd⟩ := strip_of_isString hstring
    exact absurd hd (ht d)

/-- Arrays are dull. -/
theorem dull_of_isArray (ht : t.isArray = true) : h.Dull t where
  isByRef := by
    unfold Ty.isArray at ht
    fun_induction Ty.arrayRank? t <;> simp_all [Ty.isByRef]
  isPointer := by
    unfold Ty.isArray at ht
    fun_induction Ty.arrayRank? t <;> simp_all [Ty.isPointer]
  numericKind? := Ty.numericKind?_of_isArray ht
  isNullable := by
    cases t <;> first | rfl | cases ht
  isString := by
    obtain ⟨element, rank, hstrip⟩ := Ty.strip_of_isArray ht
    exact isString_eq_false fun d hd => by rw [hstrip] at hd; cases hd

/-- Packed arrays are dull. -/
theorem dull_packedArrayOf (element : Ty) : h.Dull (Core.packedArrayOf element) where
  isByRef := rfl
  isPointer := rfl
  numericKind? := rfl
  isNullable := rfl
  isString := isString_eq_false fun d hd => by cases hd

end Hierarchy

namespace Lowering

/-! ### Close types -/

/-- Types of a lexicon that are the same up to dull types inside them. -/
inductive Close {env : Env} (L : Lexicon env) : Ty → Ty → Prop where
  | refl {t : Ty} (ht : L.types t) : Close L t t
  | dull {t u : Ty} (ht : L.types t) (hu : L.types u) (hdt : env.types.Dull t)
    (hdu : env.types.Dull u) : Close L t u
  | byRef {t u : Ty} (h : Close L t u) : Close L (.byRef t) (.byRef u)
  | pointer {t u : Ty} (h : Close L t u) : Close L (.pointer t) (.pointer u)
  | nullable {t u : Ty} (h : Close L t u) : Close L (env.core.nullableOf t) (env.core.nullableOf u)

namespace Close

variable {env : Env} {L : Lexicon env} {t u : Ty} (h : Close L t u)
include h

theorem left : L.types t := by
  induction h with
  | refl ht => exact ht
  | dull ht _ _ _ => exact ht
  | byRef _ ih => exact L.byRef ih
  | pointer _ ih => exact L.pointer ih
  | nullable _ ih => exact L.nullable ih

theorem right : L.types u := by
  induction h with
  | refl ht => exact ht
  | dull _ hu _ _ => exact hu
  | byRef _ ih => exact L.byRef ih
  | pointer _ ih => exact L.pointer ih
  | nullable _ ih => exact L.nullable ih

theorem isByRef_eq : t.isByRef = u.isByRef := by
  cases h with
  | refl | byRef | pointer | nullable => rfl
  | dull _ _ hdt hdu => rw [hdt.isByRef, hdu.isByRef]

theorem isPointer_eq : t.isPointer = u.isPointer := by
  cases h with
  | refl | byRef | pointer | nullable => rfl
  | dull _ _ hdt hdu => rw [hdt.isPointer, hdu.isPointer]

theorem numericKind?_eq : t.numericKind? = u.numericKind? := by
  cases h with
  | refl | byRef | pointer | nullable => rfl
  | dull _ _ hdt hdu => rw [hdt.numericKind?, hdu.numericKind?]

theorem primitive?_eq : t.primitive? = u.primitive? := by
  have hnone {t : Ty} (h : t.numericKind? = none) : t.primitive? = none := by
    unfold Ty.numericKind? at h
    cases hp : t.primitive? with
    | none => rfl
    | some kind => simp [hp] at h
  cases h with
  | refl | byRef | pointer | nullable => rfl
  | dull _ _ hdt hdu => rw [hnone hdt.numericKind?, hnone hdu.numericKind?]

theorem isNullable_eq : t.isNullable = u.isNullable := by
  cases h with
  | refl | byRef | pointer | nullable => rfl
  | dull _ _ hdt hdu => rw [hdt.isNullable, hdu.isNullable]

theorem isString_eq : env.types.isString t = env.types.isString u := by
  have hnot {t : Ty} (ht : ∀ d, t.strip ≠ .named d) : env.types.isString t = false :=
    Hierarchy.isString_eq_false ht
  cases h with
  | refl => rfl
  | dull _ _ hdt hdu => rw [hdt.isString, hdu.isString]
  | byRef | pointer | nullable => rw [hnot fun _ => Ty.noConfusion, hnot fun _ => Ty.noConfusion]

theorem isIntegral_eq : t.isIntegral = u.isIntegral := by
  unfold Ty.isIntegral
  rw [h.numericKind?_eq]

theorem size_eq : t.size = u.size := by
  unfold Ty.size
  rw [h.isPointer_eq, h.isByRef_eq, h.numericKind?_eq]

theorem isPointerLike_eq : t.isPointerLike = u.isPointerLike := by
  unfold Ty.isPointerLike
  rw [h.isPointer_eq, h.primitive?_eq]

theorem isBoolean_eq : t.isBoolean = u.isBoolean := by
  unfold Ty.isBoolean
  rw [h.primitive?_eq]

theorem eq_or_numericKind? : t = u ∨ t.numericKind? = none ∧ u.numericKind? = none := by
  cases h with
  | refl => exact .inl rfl
  | dull _ _ hdt hdu => exact .inr ⟨hdt.numericKind?, hdu.numericKind?⟩
  | byRef | pointer | nullable => exact .inr ⟨rfl, rfl⟩

/-- What is close to a dull type is dull. -/
theorem dull_of_dull (hu : env.types.Dull u) : env.types.Dull t := by
  cases h with
  | refl => exact hu
  | dull _ _ hdt _ => exact hdt
  | byRef => exact absurd hu.isByRef nofun
  | pointer => exact absurd hu.isPointer nofun
  | nullable => exact absurd hu.isNullable nofun

theorem symm : Close L u t := by
  induction h with
  | refl ht => exact .refl ht
  | dull ht hu hdt hdu => exact .dull hu ht hdu hdt
  | byRef _ ih => exact .byRef ih
  | pointer _ ih => exact .pointer ih
  | nullable _ ih => exact .nullable ih

/-- What close addresses lead to is close. -/
theorem elementType? (haddress : t.isByRef = true ∨ t.isPointer = true) :
    ∃ a b, t.elementType? = some a ∧ u.elementType? = some b ∧ Close L a b := by
  cases h with
  | refl ht =>
    have helement : t.elementType?.isSome = true := by
      clear ht
      fun_induction Ty.elementType? t <;> simp_all [Ty.isByRef, Ty.isPointer]
    obtain ⟨a, ha⟩ := Option.isSome_iff_exists.mp helement
    exact ⟨a, a, ha, ha, .refl (L.element ht ha)⟩
  | dull _ _ hdt _ => simp [hdt.isByRef, hdt.isPointer] at haddress
  | byRef h | pointer h => exact ⟨_, _, rfl, rfl, h⟩
  | nullable => simp [Core.nullableOf, Ty.isByRef, Ty.isPointer] at haddress

/-- What close addresses lead to is close. -/
theorem referent (haddress : t.isByRef = true ∨ t.isPointer = true) :
    Close L (t.elementType?.getD t) (u.elementType?.getD u) := by
  obtain ⟨a, b, ha, hb, hab⟩ := h.elementType? haddress
  rw [ha, hb]
  exact hab

/-- What close nullable types wrap is close. -/
theorem nullableArgument? :
    (t.nullableArgument? = none ∧ u.nullableArgument? = none)
      ∨ ∃ a b, t.nullableArgument? = some a ∧ u.nullableArgument? = some b ∧ Close L a b := by
  have hdull {t : Ty} (ht : env.types.Dull t) : t.nullableArgument? = none := by
    simp [Ty.nullableArgument?, ht.isNullable]
  cases h with
  | refl ht =>
    cases ha : t.nullableArgument? with
    | none => exact .inl ⟨rfl, rfl⟩
    | some a => exact .inr ⟨a, a, rfl, rfl, .refl (L.wrapped ht ha)⟩
  | dull _ _ hdt hdu => exact .inl ⟨hdull hdt, hdull hdu⟩
  | byRef | pointer => exact .inl ⟨rfl, rfl⟩
  | nullable h => exact .inr ⟨_, _, rfl, rfl, h⟩

theorem ite {p : Prop} [Decidable p] {t' u' : Ty} (h' : Close L t' u') :
    Close L (if p then t else t') (if p then u else u') := by
  split
  · exact h
  · exact h'

end Close

end Lowering

end ScriptLowering
