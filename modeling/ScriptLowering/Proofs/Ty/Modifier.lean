import ScriptLowering.Proofs.Ty.Shape

/-!
# Modifiers and pins on the outside

A modifier or a pin does not change how values of a type are represented, and types are compared
without them. Most questions about a type are answered as if they were not there: what ignores one
modifier and one pin ignores all of them (`Ty.ask_strip`).
-/

namespace ScriptLowering.Ty

/-! ### Questions about the definition -/

theorem definition?_of_not_isBare {t : Ty} (h : t.isBare = false) : t.definition? = none := by
  cases t with
  | modified _ _ _ | pinned _ => rfl
  | _ => cases h

theorem ask_definition_iff {α : Type} {f : Ty → α} {missing : α}
    (hmissing : ∀ t : Ty, t.definition? = none → f t = missing) (t : Ty) :
    f t = f t.strip ↔ t.isBare = true ∨ f t.strip = missing := by
  cases hbare : t.isBare with
  | true => simp [strip_of_isBare hbare]
  | false =>
    rw [hmissing t (definition?_of_not_isBare hbare)]
    simp [eq_comm]

theorem any_definition_iff {test : Definition → Bool} (t : Ty) :
    t.definition?.any test = t.strip.definition?.any test
      ↔ t.isBare = true ∨ t.strip.definition?.any test = false :=
  ask_definition_iff (f := fun t => t.definition?.any test) (fun t h => by rw [h]; rfl) t

theorem nullableArgument?_of_no_definition {t : Ty} (h : t.definition? = none) :
    t.nullableArgument? = none := by
  rw [nullableArgument?, isNullable, isNamed, h]
  rfl

/-! ### Questions about numbers -/

/-- Whether a type is pinned, be it under modifiers. -/
def isPinned : Ty → Bool
  | modified element _ _ => element.isPinned
  | pinned _ => true
  | _ => false

theorem enumUnderlying?_eq : ∀ t : Ty,
    t.enumUnderlying? = if t.isPinned then none else t.strip.enumUnderlying?
  | modified element _ _ => by
    rw [strip, isPinned, enumUnderlying?, enumUnderlying?_eq element]
  | pinned element => rfl
  | named _ | nested _ _ | array _ _ | byRef _ | pointer _ | inst _ _ | typeParam _ _ _
  | methodParam _ _ _ _ _ | functionPointer _ _ => by simp [strip, isPinned]

theorem primitive?_strip (t : Ty) : t.strip.primitive? = t.primitive? :=
  ask_strip (fun _ _ _ => rfl) (fun _ => rfl) t

/-- An enumeration that is no primitive itself, behind a pin. -/
def HidesEnumeration (t : Ty) : Prop :=
  t.isPinned = true ∧ t.strip.primitive? = none ∧ t.strip.enumUnderlying?.isSome = true

theorem HidesEnumeration.numericKind? {t : Ty} (h : t.HidesEnumeration) :
    t.numericKind? = none ∧ ∃ k, t.strip.numericKind? = some k := by
  obtain ⟨hpinned, hprimitive, henum⟩ := h
  obtain ⟨k, hk⟩ := Option.isSome_iff_exists.mp henum
  constructor
  · rw [Ty.numericKind?, ← primitive?_strip, hprimitive, enumUnderlying?_eq, hpinned]
    rfl
  · exact ⟨k, by rw [Ty.numericKind?, hprimitive, hk]; rfl⟩

/-- Every other kind is seen. -/
theorem numericKind?_iff (t : Ty) :
    t.numericKind? = t.strip.numericKind? ↔ ¬ t.HidesEnumeration := by
  constructor
  · intro h hhides
    obtain ⟨hnone, k, hk⟩ := hhides.numericKind?
    rw [hnone, hk] at h
    cases h
  · intro h
    rw [numericKind?, numericKind?, primitive?_strip, enumUnderlying?_eq t]
    rw [HidesEnumeration, primitive?_strip] at h
    cases hprimitive : t.primitive? with
    | some k => rfl
    | none =>
      cases hpinned : t.isPinned with
      | false => rfl
      | true =>
        -- There is no enumeration that the pin could hide.
        have hnone : t.strip.enumUnderlying? = none := by
          rw [← Option.not_isSome_iff_eq_none]
          exact fun henum => h ⟨hpinned, hprimitive, henum⟩
        rw [hnone]
        rfl

/-- An enumeration is no address. -/
theorem isAddress_of_enumUnderlying? {t : Ty} (hbare : t.isBare = true)
    (h : t.enumUnderlying?.isSome = true) : (t.isPointer || t.isByRef) = false := by
  cases t with
  | modified _ _ _ | pinned _ => cases hbare
  | pointer _ | byRef _ => cases h
  | _ => rfl

theorem isAddress_strip (t : Ty) :
    (t.strip.isPointer || t.strip.isByRef) = (t.isPointer || t.isByRef) :=
  ask_strip (f := fun t => t.isPointer || t.isByRef) (fun _ _ _ => rfl) (fun _ => rfl) t

theorem size_iff (t : Ty) : t.size = t.strip.size ↔ ¬ t.HidesEnumeration := by
  constructor
  · intro h hhides
    obtain ⟨hnone, k, hk⟩ := hhides.numericKind?
    have haddress := isAddress_of_enumUnderlying? (isBare_strip t) hhides.2.2
    rw [size, size, ← isAddress_strip, haddress, hnone, hk] at h
    cases k <;> cases h
  · intro h
    rw [size, size, isAddress_strip, (numericKind?_iff t).mpr h]

/-- Every question is answered through modifiers and pins: what a type is made of and whether it is
copied always, the width and kind of a number unless a pin hides an enumeration, and what is asked
of the definition only where there is no modifier and no pin, or where the answer is negative. -/
theorem modifiers_seen_through_iff (t : Ty) :
    (t.isValueType = t.strip.isValueType ∧ t.isPointer = t.strip.isPointer
      ∧ t.isByRef = t.strip.isByRef ∧ t.isArray = t.strip.isArray
      ∧ t.elementType? = t.strip.elementType?)
    ∧ (t.numericKind? = t.strip.numericKind? ↔ ¬ t.HidesEnumeration)
    ∧ (t.size = t.strip.size ↔ ¬ t.HidesEnumeration)
    ∧ (t.isStruct = t.strip.isStruct ↔ t.isBare = true ∨ t.strip.isStruct = false)
    ∧ (t.isNullable = t.strip.isNullable ↔ t.isBare = true ∨ t.strip.isNullable = false)
    ∧ (t.nullableArgument? = t.strip.nullableArgument?
      ↔ t.isBare = true ∨ t.strip.nullableArgument? = none)
    ∧ (t.isDelegate = t.strip.isDelegate ↔ t.isBare = true ∨ t.strip.isDelegate = false)
    ∧ (t.isPackedArray = t.strip.isPackedArray
      ↔ t.isBare = true ∨ t.strip.isPackedArray = false) := by
  have hsame : ∀ {α : Type} {ask : Ty → α}, (∀ e m r, ask (.modified e m r) = ask e) →
      (∀ e, ask (.pinned e) = ask e) → ask t = ask t.strip :=
    fun hmodified hpinned => (ask_strip hmodified hpinned t).symm
  refine ⟨⟨hsame ?_ ?_, hsame ?_ ?_, hsame ?_ ?_, hsame ?_ ?_, hsame ?_ ?_⟩, numericKind?_iff t,
    size_iff t, any_definition_iff t, any_definition_iff t,
    ask_definition_iff (fun _ => nullableArgument?_of_no_definition) t, any_definition_iff t,
    any_definition_iff t⟩ <;> intros <;> rfl

/-- A definition of the program behind a modifier. -/
def modifiedDefinition (category : Category) : Ty :=
  .modified (.named (.plain 80 "App" "Item" (.ofFile "App") category)) Core.standard.object true

/-- Every question about the definition is answered differently behind a modifier, and both
questions about numbers behind a pin. -/
theorem hidden_by_modifiers :
    let nullable :=
      modified (Core.standard.nullableOf Core.standard.int32) Core.standard.object true
    let packed := modified (Core.packedArrayOf Core.standard.int32) Core.standard.object true
    let enumeration := pinned (modifiedDefinition (.enumeration .i4))
    (modifiedDefinition .valueType).isStruct ≠ (modifiedDefinition .valueType).strip.isStruct
      ∧ nullable.isNullable ≠ nullable.strip.isNullable
      ∧ nullable.nullableArgument?.isSome ≠ nullable.strip.nullableArgument?.isSome
      ∧ (modifiedDefinition .delegateType).isDelegate
        ≠ (modifiedDefinition .delegateType).strip.isDelegate
      ∧ packed.isPackedArray ≠ packed.strip.isPackedArray
      ∧ enumeration.numericKind? ≠ enumeration.strip.numericKind?
      ∧ enumeration.size ≠ enumeration.strip.size := by
  decide

end ScriptLowering.Ty
