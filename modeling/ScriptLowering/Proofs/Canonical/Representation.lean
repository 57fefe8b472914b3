import ScriptLowering.Proofs.Canonical.CastTyping

/-!
# Changes of type and the runtime representation

A change of type leaves a value as it is at run time. The expansion of casts introduces changes of
type between numbers in two places. Between two kinds that need no conversion the kinds have the
same width and signedness, and both are integral or both are the same floating point kind: modifiers
are added to floating point types and taken off in this way (`floats_change_type`). The integer of
an enumeration may be read off a value that stands below casts, and there only the width and the
signedness are looked at, so that this value may be a floating point number
(`introduced_changes_keep_representation`).
-/

namespace ScriptLowering

open Script

/-! ### Kinds that need no conversion -/

theorem Canonical.agree_of_conversionKind? {source kind : Primitive} (hsource : source ≠ .boolean)
    (hkind : kind ≠ .boolean) (h : conversionKind? source kind = none) :
    source.size = kind.size ∧ source.isSigned = kind.isSigned
      ∧ (source.isIntegral = true ∧ kind.isIntegral = true
        ∨ source = kind ∧ kind.isFloating = true) := by
  revert hsource hkind h
  cases source <;> cases kind <;> decide

/-! ### Changes of type -/

/-- A change of type from a number of one kind to a number of another. -/
def Script.Node.ChangesKind (c : Core) (r : Retyping) (source kind : Primitive) (x : Node) :
    Prop :=
  ∃ target value rest, x = ⟨.changeType target, value :: rest⟩
    ∧ (value.computedType c r).numericKind? = some source ∧ target.numericKind? = some kind

namespace Canonical

variable {h : Hierarchy} {r : Retyping}

/-- The integer of an enumeration, which a cast of a value of the enumeration reads off something
that stands below it. -/
def ReadsInteger (h : Hierarchy) (r : Retyping) (replaced x : Node) : Prop :=
  ∃ target checked value rest kind, replaced = ⟨.cast target checked, value :: rest⟩
    ∧ (value.computedType h.core r).enumUnderlying? = some kind
    ∧ innermost h.core r kind value ≠ value
    ∧ x = .changeType (innermost h.core r kind value) (h.core.primitive kind)

/-- What is known of a node that comes with the replacement of a cast: if it changes the type of a
number, then the kinds have one width and signedness, and both are integral or both are the same
floating point kind, unless the integer of an enumeration is read. -/
def KeepsRepresentation (h : Hierarchy) (r : Retyping) (replaced x : Node) : Prop :=
  ∀ source kind, x.ChangesKind h.core r source kind →
    source.size = kind.size ∧ source.isSigned = kind.isSigned
      ∧ (source.isIntegral = true ∧ kind.isIntegral = true
        ∨ source = kind ∧ kind.isFloating = true ∨ ReadsInteger h r replaced x)

variable {replaced value : Node}

/-- Only changes of type are spoken of. -/
theorem keepsRepresentation_of_form {form : Form} {operands : List Node}
    (hform : ∀ target, form ≠ .changeType target) :
    KeepsRepresentation h r replaced ⟨form, operands⟩ := by
  rintro source kind ⟨target, value, rest, hx, -, -⟩
  exact absurd (Node.mk.inj hx).1 (hform target)

theorem keepsRepresentation_changeType {target : Ty}
    (hkinds : ∀ source kind, (value.computedType h.core r).numericKind? = some source →
      target.numericKind? = some kind → source.size = kind.size ∧ source.isSigned = kind.isSigned
        ∧ (source.isIntegral = true ∧ kind.isIntegral = true
          ∨ source = kind ∧ kind.isFloating = true
          ∨ ReadsInteger h r replaced (.changeType value target))) :
    KeepsRepresentation h r replaced (.changeType value target) := by
  rintro source kind ⟨target', value', rest, hx, hsource, hkind⟩
  obtain ⟨hform, hoperands⟩ := Node.mk.inj hx
  obtain rfl := Form.changeType.inj hform
  obtain ⟨rfl, rfl⟩ := List.cons.inj hoperands
  exact hkinds source kind hsource hkind

theorem keepsRepresentation_of_added {target : Ty} {checked : Bool} {rest : List Node} {x : Node}
    (hx : Added h r value target checked x) :
    KeepsRepresentation h r ⟨.cast target checked, value :: rest⟩ x := by
  cases hx with
  | upcast hsource _ =>
    refine keepsRepresentation_changeType fun source kind hsource' _ => ?_
    rw [hsource] at hsource'
    cases hsource'
  | @read kind hvalue hne =>
    have hshape := (innermost_eq_or_hasShape h.core r kind value).resolve_left hne
    refine keepsRepresentation_changeType fun source kind' hsource hkind' => ?_
    obtain rfl : kind = kind' := Option.some.inj hkind'
    obtain ⟨hsize, hsigned⟩ := agree_of_hasShape hshape hsource
    have hreads : ReadsInteger h r ⟨.cast target checked, value :: rest⟩
        (.changeType (innermost h.core r kind value) (h.core.primitive kind)) :=
      ⟨target, checked, value, rest, kind, rfl, hvalue, hne, rfl⟩
    exact ⟨hsize, hsigned, .inr (.inr hreads)⟩
  | changed hsource hkind hne hne' hnone =>
    refine keepsRepresentation_changeType fun source' kind' hsource' hkind' => ?_
    obtain rfl := Option.some.inj (hsource.symm.trans hsource')
    obtain rfl := Option.some.inj (hkind.symm.trans hkind')
    obtain ⟨hsize, hsigned, hkinds⟩ := agree_of_conversionKind? hne hne' hnone
    exact ⟨hsize, hsigned, hkinds.imp_right .inl⟩
  | constant _ | test | choice | ofEnum | integerCast _ | memberCast | conversion | call =>
    exact keepsRepresentation_of_form (by simp)

theorem keepsRepresentation_of_brings {emulateInt64 : Bool} {x : Node}
    (hbrings : (castExpansion h r emulateInt64).Brings replaced x) :
    KeepsRepresentation h r replaced x := by
  obtain ⟨m, memo, memo', hstep, hx, hnew⟩ := hbrings
  obtain ⟨target, checked, value, rest, rfl, hm⟩ := expansion_of_reduct hstep
  refine keepsRepresentation_of_added ((hm.part_or_added x hx).resolve_left fun hvalue => hnew ?_)
  exact Node.mem_selfAndDescendants_of_operand hvalue List.mem_cons_self

/-- Whatever the expansion of casts introduces keeps the representation of numbers. A node of the
expanded tree was there before or was introduced so, and only its operands have been expanded
since; this holds also if the expansion fails. -/
theorem introduced_changes_keep_representation (h : Hierarchy) (r : Retyping) (emulateInt64 : Bool)
    (limit : Nat) (n : Node) (memo : AssignableMemo) :
    let w := castExpansion h r emulateInt64
    (∀ replaced x, w.Brings replaced x → KeepsRepresentation h r replaced x)
      ∧ ∀ x' ∈ (w.run limit n memo).2.1.selfAndDescendants, ∃ x, w.DevelopsInto x x'
        ∧ (x ∈ n.selfAndDescendants ∨ ∃ replaced, w.ComesToContain n replaced
          ∧ w.Brings replaced x ∧ KeepsRepresentation h r replaced x) := by
  refine ⟨fun replaced x => keepsRepresentation_of_brings, fun x' hx' => ?_⟩
  obtain ⟨x, hdevelops, horigin⟩ := Reducer.exists_origin (Reducer.leadsTo_run limit n memo) x' hx'
  refine ⟨x, hdevelops, horigin.imp_right ?_⟩
  rintro ⟨replaced, hcontains, hbrings⟩
  exact ⟨replaced, hcontains, hbrings, keepsRepresentation_of_brings hbrings⟩

/-- A character that is cast to an unsigned integer of its width. -/
def characterCast : Node :=
  (held (Core.standard.primitive .char)).cast (Core.standard.primitive .u2) false

/-- The same character, of which the type is changed. -/
def characterChange : Node :=
  .changeType (held (Core.standard.primitive .char)) (Core.standard.primitive .u2)

/-- A character becomes an unsigned integer by a change of type that keeps its representation. -/
theorem characterChange_keeps_representation :
    expandCasts.Brings characterCast characterChange
      ∧ characterChange.ChangesKind .standard .empty .char .u2
      ∧ KeepsRepresentation (.ofCore .standard) .empty characterCast characterChange
      ∧ characterChange ∈ (expandCasts.run 64 characterCast .empty).2.1.selfAndDescendants
      ∧ ∃ x, expandCasts.DevelopsInto x characterChange
        ∧ (x ∈ characterCast.selfAndDescendants
          ∨ ∃ replaced, expandCasts.ComesToContain characterCast replaced
            ∧ expandCasts.Brings replaced x
            ∧ KeepsRepresentation (.ofCore .standard) .empty replaced x) := by
  have hkept := introduced_changes_keep_representation (.ofCore .standard) .empty false 64
    characterCast .empty
  have hbrings : expandCasts.Brings characterCast characterChange := by
    refine ⟨characterChange, .empty, .empty, by rfl, Node.self_mem_selfAndDescendants _, ?_⟩
    simp [characterCast, characterChange, held, Node.cast, Node.changeType,
      Node.selfAndDescendants_mk]
  have hresult : (expandCasts.run 64 characterCast .empty).2.1 = characterChange := by rfl
  have hmem : characterChange ∈ (expandCasts.run 64 characterCast .empty).2.1.selfAndDescendants :=
    hresult ▸ characterChange.self_mem_selfAndDescendants
  exact ⟨hbrings, ⟨_, _, _, rfl, rfl, rfl⟩, hkept.1 _ _ hbrings, hmem, hkept.2 _ hmem⟩

/-- A floating point number that is cast to its own type with a modifier. -/
def modifierCast : Node :=
  (held (Core.standard.primitive .r4)).cast
    (.modified (Core.standard.primitive .r4) Core.standard.object false) false

/-- A floating point number that is made a choice and then a 64-bit integer. -/
def floatThroughChoice : Node :=
  ((held (Core.standard.primitive .r4)).cast choice false).cast (Core.standard.primitive .i8) false

/-- The expansion of casts changes the type of floating point numbers: to the same type with a
modifier, and to an integer, if the number is read as the integer of an enumeration. -/
theorem floats_change_type :
    (∃ x, expandCasts.Brings modifierCast x ∧ x.ChangesKind .standard .empty .r4 .r4
        ∧ (expandCasts.run 64 modifierCast .empty).2.1 = x)
      ∧ ∃ x, expandCasts.Brings floatThroughChoice x ∧ x.ChangesKind .standard .empty .r4 .i4
        ∧ (expandCasts.run 64 floatThroughChoice .empty).2.1
          = .conversion x .widen (Core.standard.primitive .i8) false := by
  refine ⟨⟨.changeType (held (Core.standard.primitive .r4))
      (.modified (Core.standard.primitive .r4) Core.standard.object false),
      ⟨_, .empty, .empty, by rfl, Node.self_mem_selfAndDescendants _, ?_⟩,
      ⟨_, _, _, rfl, rfl, rfl⟩, by rfl⟩,
    ⟨.changeType (held (Core.standard.primitive .r4)) (Core.standard.primitive .i4),
      ⟨.cast (.changeType (held (Core.standard.primitive .r4)) (Core.standard.primitive .i4))
        (Core.standard.primitive .i8) false, .empty, .empty, by rfl,
        Node.mem_selfAndDescendants_of_operand (Node.self_mem_selfAndDescendants _)
          List.mem_cons_self, ?_⟩,
      ⟨_, _, _, rfl, rfl, rfl⟩, by rfl⟩⟩
  · simp [modifierCast, held, Node.cast, Node.changeType, Node.selfAndDescendants_mk]
  · simp [floatThroughChoice, held, Node.cast, Node.changeType, Node.selfAndDescendants_mk]

end Canonical

end ScriptLowering
