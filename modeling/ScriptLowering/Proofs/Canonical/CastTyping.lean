import ScriptLowering.Proofs.Canonical.Expansion
import ScriptLowering.Proofs.Canonical.Settling
import ScriptLowering.Proofs.Script.Typing

/-!
# Expanded casts have the types of the casts

Over an orderly world, what a cast is expanded to has the type of the cast up to modifiers,
whichever way it is expanded (`Expansion.yields`), and a cast between numeric types is always
expanded (`isSome_expandCast?`). A cast is decided before its operand is expanded. Over a faithful
world that does no harm: the type of the operand stays alike, and so does its numeric kind
(`castExpansion_law`).
-/

namespace ScriptLowering

open Script

variable {h : Hierarchy} {world : Ty → Prop} {applied : Prop} {t target : Ty} {k : Primitive}

/-! ### Kinds over an orderly world -/

section

variable (hw : h.Orderly world)
include hw

/-- The core primitives are regular. -/
theorem Hierarchy.Orderly.regular_primitive (k : Primitive) :
    (h.core.primitive k).Regular world applied :=
  Ty.regular_named (hw.core k)

theorem Ty.Regular.like_primitive :
    ∀ {t : Ty}, t.Regular world applied → t.primitive? = some k → t.Like (h.core.primitive k)
  | .named _, ht, hk | .nested _ _, ht, hk =>
    (h.same_iff_like ht.isClosed _).mp (hw.primitives _ k (ht.mem_world rfl) hk)
  | .modified element _ _, ht, hk => by
    have helement : element.Regular world applied := ht.of_parts fun p hp => by simp [parts, hp]
    have hlike := Ty.Regular.like_primitive helement hk
    unfold Like
    rw [shape, if_neg (by decide)]
    exact hlike
  | .pinned _, ht, _ => (ht.ofWorld _ (mem_parts_self _)).elim
  | .array _ _, _, hk | .byRef _, _, hk | .pointer _, _, hk | .inst _ _, _, hk
  | .typeParam _ _ _, _, hk | .methodParam _ _ _ _ _, _, hk | .functionPointer _ _, _, hk => by
    cases hk

theorem Ty.isIntegral_of_enumUnderlying? :
    ∀ {t : Ty}, t.Over world → t.enumUnderlying? = some k → k.isIntegral = true
  | .modified element _ _, ht, hk => by
    have helement : element.Over world := fun p hp => ht p (by simp [parts, hp])
    exact Ty.isIntegral_of_enumUnderlying? helement hk
  | .named _, ht, hk | .nested _ _, ht, hk | .array _ _, ht, hk | .byRef _, ht, hk
  | .pointer _, ht, hk | .inst _ _, ht, hk | .typeParam _ _ _, ht, hk
  | .methodParam _ _ _ _ _, ht, hk | .functionPointer _ _, ht, hk => by
    -- The definition is one of the world, with the category of an enumeration.
    obtain ⟨d, hd, hcategory⟩ := Option.map_eq_some_iff.mp ((enumUnderlying?_eq_some_iff rfl).mp hk)
    obtain ⟨u, hu, hdefinition⟩ := definition?_mem_world ht hd
    have hcategory : u.category? = some (.enumeration k) := by
      rw [category?, hdefinition, Option.map_some, hcategory]
    exact hw.enumerations u k hu hcategory
  | .pinned _, _, hk => by cases hk

theorem Ty.Regular.isBoolean_of_numericKind? (ht : t.Regular world applied)
    (hk : t.numericKind? = some .boolean) : t.primitive? = some .boolean := by
  unfold numericKind? at hk
  cases hprimitive : t.primitive? with
  | some p => simpa [hprimitive] using hk
  | none =>
    have hunderlying : t.enumUnderlying? = some .boolean := by simpa [hprimitive] using hk
    exact absurd (isIntegral_of_enumUnderlying? hw ht.ofWorld hunderlying) (by decide)

/-! ### Constants -/

theorem Script.Literal.retype?_type {l l' : Literal} (htarget : target.Regular world applied)
    (hretype : l.retype? target = some l') :
    (l'.type h.core).Regular world applied ∧ (l'.type h.core).Like target := by
  have hself : target.Regular world applied ∧ target.Like target := ⟨htarget, .refl _⟩
  unfold retype? at hretype
  obtain ⟨value, -, hretype⟩ := Option.bind_eq_some_iff.mp hretype
  split at hretype
  · -- Truth values: the constant has their type without modifiers.
    next hboolean =>
    cases hretype
    exact ⟨hw.regular_primitive .boolean, (htarget.like_primitive hw (beq_iff_eq.mp hboolean)).symm⟩
  · split at hretype
    · cases hretype
      exact hself
    · obtain ⟨kind, hkind, hretype⟩ := Option.bind_eq_some_iff.mp hretype
      split at hretype
      · -- Characters, in the same way.
        cases hretype
        exact ⟨hw.regular_primitive .char, (htarget.like_primitive hw hkind).symm⟩
      · cases hretype
        exact hself
      · cases hretype
        exact hself
      · cases hretype
      · cases hretype
        exact hself

end

namespace Canonical

/-! ### What a cast becomes -/

/-- A tree over the world with the type of a cast, up to modifiers. -/
structure Yields (c : Core) (r : Retyping) (world : Ty → Prop) (applied : Prop) (target : Ty)
    (n : Node) : Prop where
  typed : n.TypedOver c r world applied
  like : (n.computedType c r).Like target

variable {r : Retyping} {value : Node} {c : Core}

/-- A node with a known type. -/
theorem yields_known {form : Form} {operands : List Node} (hrule : form.typeRule c r = .known t)
    (ht : t.Regular world applied) (hlike : t.Like target)
    (hoperands : ∀ o ∈ operands, o.TypedOver c r world applied) :
    Yields c r world applied target ⟨form, operands⟩ := by
  have htype : Node.computedType c r ⟨form, operands⟩ = t := by simp only [Node.computedType, hrule]
  exact ⟨Node.typedOver_mk.mpr ⟨htype ▸ ht, hoperands⟩, htype ▸ hlike⟩

/-- A node with a known type and one operand. -/
theorem yields_unary {form : Form} (hrule : form.typeRule c r = .known t)
    (ht : t.Regular world applied) (hlike : t.Like target)
    (hvalue : value.TypedOver c r world applied) :
    Yields c r world applied target ⟨form, [value]⟩ :=
  yields_known hrule ht hlike (List.forall_mem_singleton.mpr hvalue)

/-- A constant. -/
theorem yields_literal {l : Literal} (hl : (l.type c).Regular world applied)
    (hlike : (l.type c).Like target) : Yields c r world applied target (.literal l) :=
  yields_known rfl hl hlike (fun _ h => absurd h List.not_mem_nil)

/-- A constant that an expanded cast needs. -/
theorem Constant.yields (hw : h.Orderly world) {l : Literal} (hl : Constant target l)
    (htarget : target.Regular world applied) :
    Yields h.core r world applied target (.literal l) := by
  cases hl with
  | null | float => exact yields_literal htarget (.refl _)
  | retyped hretype =>
    obtain ⟨hregular, hlike⟩ := Literal.retype?_type hw htarget hretype
    exact yields_literal hregular hlike

theorem typedOver_innermost {kind : Primitive} (hvalue : value.TypedOver c r world applied) :
    (innermost c r kind value).TypedOver c r world applied :=
  innermost_of c r kind (fun _ hn => (Node.typedOver_mk.mp hn).2 _ List.mem_cons_self) hvalue

section

variable (hw : h.Orderly world) (htarget : target.Regular world applied)
  (hvalue : value.TypedOver h.core r world applied)
include hw hvalue

theorem yields_enumInteger (kind : Primitive) :
    Yields h.core r world applied (h.core.primitive kind) (enumInteger h r value kind) := by
  have hinner : (innermost h.core r kind value).TypedOver h.core r world applied :=
    typedOver_innermost hvalue
  have hregular : (h.core.primitive kind).Regular world applied := hw.regular_primitive kind
  unfold enumInteger
  dsimp only
  split
  · next heq => exact ⟨hinner, h.like_of_equal hinner.root.isClosed heq⟩
  · split
    · exact yields_unary rfl hregular (.refl _) hinner
    · exact yields_unary rfl hregular (.refl _) hinner

include htarget in
theorem yields_same (htypes : Coincide h target (value.computedType h.core r)) :
    Yields h.core r world applied target value := by
  cases htypes with
  | equal hequal => exact ⟨hvalue, (h.like_of_equal htarget.isClosed hequal).symm⟩
  | truth hkind hboolean =>
    have hsource := hvalue.root.like_primitive hw (beq_iff_eq.mp hboolean)
    have hboolean := htarget.like_primitive hw (htarget.isBoolean_of_numericKind? hw hkind)
    exact ⟨hvalue, hsource.trans hboolean.symm⟩

include htarget in
/-- A cast is expanded to a tree of its type. -/
theorem Expansion.yields {checked : Bool} {n : Node} (hn : Expansion h r value target checked n) :
    Yields h.core r world applied target n := by
  have hinteger := yields_enumInteger hw hvalue
  have haround {form : Form} {o : Node} (hrule : form.typeRule h.core r = .known target)
      (ho : o.TypedOver h.core r world applied) :
      Yields h.core r world applied target ⟨form, [o]⟩ := yields_unary hrule htarget (.refl _) ho
  cases hn with
  | same htypes => exact yields_same hw htarget hvalue htypes
  | constant hl => exact hl.yields hw htarget
  | upcast _ _ | changed _ _ _ _ _ | conversion | call => exact haround rfl hvalue
  | test hkind hzero =>
    have hboolean := htarget.like_primitive hw (htarget.isBoolean_of_numericKind? hw hkind)
    exact yields_known rfl (hw.regular_primitive .boolean) hboolean.symm
      (by simp [hvalue, (hzero.yields hw hvalue.root).typed])
  | choice hone hzero =>
    have hone := (hone.yields (r := r) hw htarget).typed
    have hzero := (hzero.yields (r := r) hw htarget).typed
    exact yields_known rfl htarget (.refl _) (by simp [hvalue, hone, hzero])
  | @integer kind _ hequal =>
    have hkind := h.like_of_equal htarget.isClosed hequal
    exact ⟨(hinteger kind).typed, (hinteger kind).like.trans hkind.symm⟩
  | integerCast _ => exact haround rfl (hinteger _).typed
  | @member kind _ _ =>
    have hcast : Yields h.core r world applied (h.core.primitive kind)
        (.cast value (h.core.primitive kind) checked) :=
      yields_unary rfl (hw.regular_primitive kind) (.refl _) hvalue
    exact haround rfl hcast.typed

end

/-! ### Which casts are expanded -/

theorem isSome_toBoolean? {source : Ty} (hsource : source.numericKind?.isSome = true) :
    (toBoolean? c value source).isSome = true := by
  have hzero : (zeroOf? c source).isSome = true := by
    unfold zeroOf?
    split
    · rfl
    · exact Literal.isSome_retype? rfl hsource
  obtain ⟨kind, hkind⟩ := Option.isSome_iff_exists.mp hsource
  unfold toBoolean?
  split
  · rfl
  · simp [hkind, hzero]

theorem isSome_expandCast? {emulateInt64 checked : Bool} {memo : AssignableMemo}
    (hsource : (value.computedType h.core r).numericKind?.isSome = true)
    (htarget : target.numericKind?.isSome = true) :
    (expandCast? h r emulateInt64 value target checked memo).1.isSome = true := by
  have hnumeric : (expandNumeric? h r emulateInt64 value (value.computedType h.core r) target
      checked).isSome = true := by
    obtain ⟨sourceKind, hsourceKind⟩ := Option.isSome_iff_exists.mp hsource
    obtain ⟨targetKind, htargetKind⟩ := Option.isSome_iff_exists.mp htarget
    unfold expandNumeric?
    split
    · exact isSome_toBoolean? hsource
    · rfl
    · split
      · rfl
      · split <;> rfl
    · next hnone => exact absurd htargetKind (hnone _ _ hsourceKind)
  obtain ⟨targetKind, htargetKind⟩ := Option.isSome_iff_exists.mp htarget
  unfold expandCast?
  dsimp only
  split
  · rfl
  · split
    · rfl
    · split
      · rfl
      · simp [htargetKind, hnumeric]

/-! ### The whole reduction -/

/-- Whether a node casts a number to a number. -/
def castsNumber (c : Core) (r : Retyping) : Node → Bool
  | ⟨.cast target _, value :: _⟩ =>
    (value.computedType c r).numericKind?.isSome && target.numericKind?.isSome
  | _ => false

theorem castExpansion_law (hw : h.Orderly world) (emulateInt64 : Bool) :
    (castExpansion h r emulateInt64).Law (Node.TypedOver h.core r world applied)
      (Node.LikeTyped h.core r)
      (fun m => applied → h.Faithful world → castsNumber h.core r m = false) where
  refl _ := Ty.Like.refl _
  trans hnm hmk := Ty.Like.trans hnm hmk
  operand hn := (Node.typedOver_mk.mp hn).2
  step := by
    intro n m memo memo' hn hstep
    obtain ⟨target, checked, value, rest, rfl, hm⟩ := castExpansion_eq_some hstep
    obtain ⟨htarget, hoperands⟩ := Node.typedOver_mk.mp hn
    obtain ⟨htyped, hlike⟩ := (expansion_expandCast? hm).yields hw htarget
      (hoperands value List.mem_cons_self)
    exact ⟨htyped, hlike.symm⟩
  congr := by
    intro form operands operands' hn hbecome
    have hoperands := Reducer.forall_mem_right (fun _ _ ho => ho.invariant) hbecome
    have hlike := hbecome.imp fun _ _ ho => ho.related
    exact ⟨hn.replace (Ty.regular_named hw.void) hoperands, Node.computedType_like hlike⟩
  finish := by
    intro form operands operands' memo memo' hn hnone hbecome happlied hfaithful
    -- A cast between numbers would have been expanded.
    rw [Bool.eq_false_iff]
    intro hcasts
    unfold castsNumber at hcasts
    split at hcasts
    · next target checked value' rest' heq =>
      obtain ⟨rfl, rfl⟩ := Node.mk.inj heq
      obtain ⟨hsource', htarget⟩ := Bool.and_eq_true_iff.mp hcasts
      cases hbecome with
      | cons hvalue hrest =>
        -- The operand had the same numeric kind when the cast was left alone.
        next value rest =>
        have hroot := ((Node.typedOver_mk.mp hn).2 value List.mem_cons_self).root
        have hkind := hroot.numericKind?_eq hfaithful happlied hvalue.invariant.root hvalue.related
        rw [← hkind] at hsource'
        have hexpands : (expandCast? h r emulateInt64 value target checked memo).1.isSome = true :=
          isSome_expandCast? hsource' htarget
        have hleft : (expandCast? h r emulateInt64 value target checked memo).1 = none :=
          Except.ok.inj (Prod.mk.inj hnone).1
        rw [hleft] at hexpands
        cases hexpands
    · cases hcasts

/-- Expanding the casts of a tree over an orderly world keeps its type. If the world is faithful and
generic instances apply definitions, no cast between numbers remains. -/
theorem castExpansion_keeps_type (hw : h.Orderly world) {emulateInt64 changed : Bool} {limit : Nat}
    {n n' : Node} {memo memo' : AssignableMemo}
    (hover : ∀ m ∈ n.selfAndDescendants, (m.computedType h.core r).Over world)
    (hrun : (castExpansion h r emulateInt64).run limit n memo = (.ok changed, n', memo')) :
    h.same (n'.computedType h.core r) (n.computedType h.core r) = true
      ∧ (h.Faithful world →
        (∀ m ∈ n.selfAndDescendants, (m.computedType h.core r).AppliesDefinitions) →
        ∀ m ∈ n'.selfAndDescendants, castsNumber h.core r m = false) := by
  -- The side condition of regular types is that of the second statement.
  have hn : n.TypedOver h.core r world
      (∀ m ∈ n.selfAndDescendants, (m.computedType h.core r).AppliesDefinitions) :=
    fun m hm => ⟨hover m hm, fun happlied => happlied m hm⟩
  obtain ⟨⟨htyped, hlike⟩, hnodes⟩ := (castExpansion_law hw emulateInt64).run hn hrun
  exact ⟨(h.same_iff_like htyped.root.isClosed _).mpr hlike.symm,
    fun hfaithful happlied m hm => hnodes m hm happlied hfaithful⟩

/-- A variable. -/
def held (type : Ty) : Node :=
  ⟨.var ⟨0, "y", .localVariable, type, 0⟩, []⟩

/-- An enumeration over 32-bit integers, with a generic parameter. -/
def choice : Ty :=
  .named { Definition.plain 40 "App" "Choice" (.ofFile "App.exe") (.enumeration .i4) with
    genericParameters := ["T"] }

theorem faithful_choice :
    (Hierarchy.ofCore .standard).Faithful (· ∈ Ty.primitivesAnd [choice]) :=
  Hierarchy.faithful_primitivesAnd
    (Hierarchy.orderly_primitivesAnd rfl (by decide +kernel) (by decide +kernel)
      (by decide +kernel))
    (by decide +kernel)

theorem regular_choice : choice.Regular (· ∈ Ty.primitivesAnd [choice]) applied :=
  Ty.regular_named (Ty.mem_primitivesAnd List.mem_cons_self)

/-- A 32-bit integer that is made a choice and then a 64-bit integer. -/
def throughChoice : Node :=
  ((held (Core.standard.primitive .i4)).cast choice false).cast (Core.standard.primitive .i8) false

/-- The expansion of casts among the core types. -/
def expandCasts : Reducer AssignableMemo :=
  castExpansion (.ofCore .standard) .empty false

/-- The casts through a choice are expanded to a tree of the same type without casts. -/
theorem throughChoice_keeps_type :
    ∃ n' memo', expandCasts.run 64 throughChoice .empty = (.ok true, n', memo')
      ∧ (Hierarchy.ofCore .standard).same (n'.computedType .standard .empty)
          (Core.standard.primitive .i8) = true
      ∧ ∀ m ∈ n'.selfAndDescendants, castsNumber .standard .empty m = false := by
  have hchanged : (expandCasts.run 64 throughChoice .empty).1.toOption = some true := by
    decide +kernel
  have hregular : throughChoice.TypedOver .standard .empty (· ∈ Ty.primitivesAnd [choice])
      True := by
    simp only [throughChoice, held, Node.cast, Node.typedOver_mk, List.forall_mem_singleton]
    exact ⟨faithful_choice.regular_primitive .i8, regular_choice,
      faithful_choice.regular_primitive .i4, fun _ h => absurd h List.not_mem_nil⟩
  rcases hrun : expandCasts.run 64 throughChoice .empty with ⟨e | changed, n', memo'⟩ <;>
    rw [hrun] at hchanged <;> cases hchanged
  have hkept := castExpansion_keeps_type faithful_choice.toOrderly
    (fun m hm => (hregular m hm).ofWorld) hrun
  exact ⟨n', memo', rfl, hkept.1,
    hkept.2 faithful_choice fun m hm => (hregular m hm).applies trivial⟩

/-! ### Casts between numbers that remain -/

/-- A tree over an orderly world of which a cast between numbers remains. -/
structure LeavesCast (more : List Ty) (n : Node) : Prop where
  orderly : (Hierarchy.ofCore .standard).Orderly (· ∈ Ty.primitivesAnd more)
  valid : n.validate.isOk = true
  ofWorld : ∀ m ∈ n.selfAndDescendants,
    (m.computedType .standard .empty).Over (· ∈ Ty.primitivesAnd more)
  succeeds : (expandCasts.run 64 n .empty).1.isOk = true
  remains : ((expandCasts.run 64 n .empty).2.1.selfAndDescendants.any
    (castsNumber .standard .empty)) = true

/-- A value type that is called as the 32-bit integers, but is not a primitive. -/
def namesake : Ty :=
  .named (.plain 41 "System" "Int32" Core.standard.scope .valueType)

/-- A 32-bit integer that is made a namesake and then a 64-bit integer: the namesake is dropped. -/
def throughNamesake : Node :=
  ((held (Core.standard.primitive .i4)).cast namesake false).cast (Core.standard.primitive .i8)
    false

/-- A reference to a choice. -/
def choiceReference (generic : Ty) : Ty :=
  .byRef (.inst generic [Core.standard.primitive .i4])

/-- What a reference to choices holds, seen as a reference to modified choices: the modifier hides
the enumeration. -/
def throughReference : Node :=
  ((held (choiceReference choice)).cast
    (choiceReference (.modified choice Core.standard.object false)) false).dereference.cast
      (Core.standard.primitive .i8) false

theorem over_choiceReference {generic : Ty} (hgeneric : generic.Over world)
    (hint : world (Core.standard.primitive .i4)) : (choiceReference generic).Over world := by
  intro p hp
  simp only [choiceReference, Ty.parts, Ty.partsAll, List.mem_cons, List.mem_append,
    List.append_nil] at hp
  rcases hp with rfl | rfl | hp | hp
  · exact fun h => by cases h
  · exact fun h => by cases h
  · exact hgeneric p hp
  · exact Ty.over_named hint p hp

/-- A cast between numbers can remain, if a value type is called as a primitive without being one,
and if an instance applies a modified definition. -/
theorem numeric_cast_remains :
    LeavesCast [namesake] throughNamesake
      ∧ LeavesCast [choice, Core.standard.object] throughReference := by
  have hfirst : (Hierarchy.ofCore .standard).Orderly (· ∈ Ty.primitivesAnd [namesake]) :=
    Hierarchy.orderly_primitivesAnd rfl (by decide +kernel) (by decide +kernel) (by decide +kernel)
  have hsecond : (Hierarchy.ofCore .standard).Orderly
      (· ∈ Ty.primitivesAnd [choice, Core.standard.object]) :=
    Hierarchy.orderly_primitivesAnd rfl (by decide +kernel) (by decide +kernel) (by decide +kernel)
  refine ⟨⟨hfirst, by decide +kernel, ?_, by decide +kernel, by decide +kernel⟩,
    ⟨hsecond, by decide +kernel, ?_, by decide +kernel, by decide +kernel⟩⟩
  · have hnamesake : namesake ∈ Ty.primitivesAnd [namesake] :=
      Ty.mem_primitivesAnd List.mem_cons_self
    simp only [throughNamesake, held, Node.cast, Node.selfAndDescendants_mk, List.flatMap_cons,
      List.flatMap_nil, List.append_nil, List.forall_mem_cons]
    exact ⟨Ty.over_named (hfirst.core .i8), Ty.over_named hnamesake,
      Ty.over_named (hfirst.core .i4), fun _ h => absurd h List.not_mem_nil⟩
  · have hchoice : choice.Over (· ∈ Ty.primitivesAnd [choice, Core.standard.object]) :=
      Ty.over_named (Ty.mem_primitivesAnd (by simp [choice]))
    have hmodified : (Ty.modified choice Core.standard.object false).Over
        (· ∈ Ty.primitivesAnd [choice, Core.standard.object]) := by
      have hobject : Core.standard.object.Over
          (· ∈ Ty.primitivesAnd [choice, Core.standard.object]) :=
        Ty.over_named (Ty.mem_primitivesAnd (by simp [Core.object]))
      intro p hp
      simp only [Ty.parts, List.mem_cons, List.mem_append] at hp
      rcases hp with rfl | hp | hp
      · exact fun h => by cases h
      · exact hchoice p hp
      · exact hobject p hp
    have hreference := over_choiceReference hmodified (hsecond.core .i4)
    simp only [throughReference, held, Node.cast, Node.dereference, Node.selfAndDescendants_mk,
      List.flatMap_cons, List.flatMap_nil, List.append_nil, List.forall_mem_cons]
    -- What the reference refers to is a part of it.
    exact ⟨Ty.over_named (hsecond.core .i8), fun p hp => hreference p (List.mem_cons_of_mem _ hp),
      hreference, over_choiceReference hchoice (hsecond.core .i4),
      fun _ h => absurd h List.not_mem_nil⟩

end Canonical

end ScriptLowering
