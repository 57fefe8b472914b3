import ScriptLowering.Canonical.CastExpansion
import ScriptLowering.Proofs.Canonical.Provenance

/-!
# What a cast may become

`Expansion` lists the expressions that a cast of a value may become, each with what is known of the
types when it does (`expansion_of_reduct`), and `Added` lists the nodes in them that are no part of
the value (`Expansion.part_or_added`). Statements about all expanded casts go case by case through
these lists, and no further into the decisions behind them.
-/

namespace ScriptLowering

open Script

/-- Whether the form is a cast that is not expanded yet. -/
def Script.Form.isCast : Form → Bool
  | .cast _ _ => true
  | _ => false

/-- A constant of a type, or of a core primitive. -/
def Script.Literal.IsOf (c : Core) (t : Ty) (l : Literal) : Prop :=
  l.type c = t ∨ ∃ kind, l.type c = c.primitive kind

variable {l : Literal}

theorem Script.Literal.isOf_retype? {c : Core} {l' : Literal} {target : Ty}
    (h : l.retype? target = some l') : l'.IsOf c target := by
  unfold retype? at h
  obtain ⟨value, -, h⟩ := Option.bind_eq_some_iff.mp h
  split at h
  · cases h
    exact .inr ⟨.boolean, rfl⟩
  · split at h
    · cases h
      exact .inl rfl
    · obtain ⟨kind, -, h⟩ := Option.bind_eq_some_iff.mp h
      split at h <;> cases h
      · exact .inr ⟨.char, rfl⟩
      · exact .inl rfl
      · exact .inl rfl
      · exact .inl rfl

theorem Script.Literal.isSome_retype? {target : Ty} (hvalue : l.toInt64?.isSome = true)
    (htarget : target.numericKind?.isSome = true) : (l.retype? target).isSome = true := by
  obtain ⟨value, hvalue⟩ := Option.isSome_iff_exists.mp hvalue
  unfold retype?
  rw [hvalue]
  by_cases hboolean : target.isBoolean = true
  · simp [hboolean]
  · cases hunderlying : target.enumUnderlying? with
    | some kind => simp [hboolean]
    | none =>
      -- It is a primitive then, and not that of truth values.
      obtain ⟨kind, hkind⟩ : ∃ kind, target.primitive? = some kind := by
        simpa [Ty.numericKind?, hunderlying, Option.isSome_iff_exists] using htarget
      have hne : kind ≠ .boolean := by
        rintro rfl
        exact hboolean (beq_iff_eq.mpr hkind)
      cases kind <;> simp_all

namespace Canonical

/-- The constants that an expanded cast needs: null, the zero of a floating point type, and constants
that are made of others. -/
inductive Constant (t : Ty) : Literal → Prop where
  | null : Constant t (.null t)
  | float : Constant t (.float .zero t)
  | retyped {l l' : Literal} : l.retype? t = some l' → Constant t l'

theorem Constant.isOf {c : Core} {t : Ty} (hl : Constant t l) : l.IsOf c t := by
  cases hl with
  | null | float => exact .inl rfl
  | retyped h => exact Literal.isOf_retype? h

variable {h : Hierarchy} {r : Retyping} {value n : Node} {target : Ty} {checked : Bool}

/-! ### Values under casts -/

theorem agree_of_hasShape {kind source : Primitive} {t : Ty} (h : hasShape kind t = true)
    (hsource : t.numericKind? = some source) :
    source.size = kind.size ∧ source.isSigned = kind.isSigned := by
  simpa [hasShape, hsource] using h

theorem innermost_of {p : Node → Prop} (c : Core) (r : Retyping) (kind : Primitive)
    (hp : ∀ {form : Form} {operand : Node} {rest : List Node}, isTransparent form = true →
      p ⟨form, operand :: rest⟩ → p operand) (hvalue : p value) : p (innermost c r kind value) := by
  fun_induction innermost c r kind value with
  | case1 form => exact hvalue
  | case2 form operand rest hthrough ih => exact ih (hp (Bool.and_eq_true_iff.mp hthrough).1 hvalue)
  | case3 form operand rest _ => exact hvalue

theorem innermost_mem (c : Core) (r : Retyping) (kind : Primitive) (value : Node) :
    innermost c r kind value ∈ value.selfAndDescendants :=
  innermost_of c r kind (fun _ hmem => Node.mem_selfAndDescendants_trans
    (Node.mem_selfAndDescendants_of_operand (Node.self_mem_selfAndDescendants _) List.mem_cons_self)
    hmem) value.self_mem_selfAndDescendants

theorem innermost_eq_or_hasShape (c : Core) (r : Retyping) (kind : Primitive) (value : Node) :
    innermost c r kind value = value
      ∨ hasShape kind ((innermost c r kind value).computedType c r) = true := by
  fun_induction innermost c r kind value with
  | case1 form => exact .inl rfl
  | case2 form operand rest hthrough ih =>
    right
    rcases ih with hsame | hshape
    · rw [hsame]
      exact (Bool.and_eq_true_iff.mp hthrough).2
    · exact hshape
  | case3 form operand rest _ => exact .inl rfl

/-- How the integer of an enumeration is read off a value. -/
inductive Reading (h : Hierarchy) (r : Retyping) (kind : Primitive) (inner : Node) :
    Node → Prop where
  /-- The value has the type of the integer. -/
  | same : h.equal (inner.computedType h.core r) (h.core.primitive kind) true = true →
    Reading h r kind inner inner
  /-- The value is a member of an enumeration. -/
  | ofEnum : Reading h r kind inner (.conversion inner .enumToInt (h.core.primitive kind) false)
  /-- The value is something else, and only its type changes. -/
  | changed : (inner.computedType h.core r).enumUnderlying? = none →
    Reading h r kind inner (.changeType inner (h.core.primitive kind))

theorem reading_enumInteger (h : Hierarchy) (r : Retyping) (value : Node) (kind : Primitive) :
    Reading h r kind (innermost h.core r kind value) (enumInteger h r value kind) := by
  unfold enumInteger
  dsimp only
  split
  · next hequal => exact .same hequal
  · split
    · exact .ofEnum
    · next hnone => exact .changed (by simpa using hnone)

/-! ### Expanded casts -/

/-- Types between which a cast does nothing: equal ones, and those of truth values. -/
inductive Coincide (h : Hierarchy) (target source : Ty) : Prop where
  | equal {strict : Bool} : h.equal target source strict = true → Coincide h target source
  | truth : target.numericKind? = some .boolean → source.isBoolean = true → Coincide h target source

/-- What a cast of a value may become. -/
inductive Expansion (h : Hierarchy) (r : Retyping) (value : Node) (target : Ty) (checked : Bool) :
    Node → Prop where
  /-- The cast does nothing. -/
  | same : Coincide h target (value.computedType h.core r) → Expansion h r value target checked value
  /-- A constant, or null. -/
  | constant {l : Literal} : Constant target l → Expansion h r value target checked (.literal l)
  /-- A more general reference. -/
  | upcast : (value.computedType h.core r).numericKind? = none → target.numericKind? = none →
    Expansion h r value target checked (.changeType value target)
  /-- A truth value, by comparison with zero or null. -/
  | test {zero : Literal} : target.numericKind? = some .boolean →
    Constant (value.computedType h.core r) zero →
    Expansion h r value target checked
      (.binary .notEqual value (.literal zero) h.core.boolean)
  /-- A number made of a truth value. -/
  | choice {one zero : Literal} : Constant target one → Constant target zero →
    Expansion h r value target checked (.ternary value (.literal one) (.literal zero) target)
  /-- The integer of an enumeration. -/
  | integer {kind : Primitive} : (value.computedType h.core r).enumUnderlying? = some kind →
    h.equal target (h.core.primitive kind) true = true →
    Expansion h r value target checked (enumInteger h r value kind)
  /-- A cast of the integer of an enumeration. -/
  | integerCast {kind : Primitive} :
    (value.computedType h.core r).enumUnderlying? = some kind →
    Expansion h r value target checked (.cast (enumInteger h r value kind) target checked)
  /-- A member of an enumeration, made of an integer that is cast first. -/
  | member {kind : Primitive} : (value.computedType h.core r).enumUnderlying? = none →
    target.enumUnderlying?.isSome = true →
    Expansion h r value target checked
      (.conversion (.cast value (h.core.primitive kind) checked) .intToEnum target false)
  /-- A conversion of the value, also to a member of an enumeration. -/
  | conversion {kind : ConversionKind} {checked' : Bool} :
    Expansion h r value target checked (.conversion value kind target checked')
  /-- A call of the 64-bit runtime. -/
  | call {name : String} : Expansion h r value target checked (.intrinsic name target [value])
  /-- Another type of a kind that needs no conversion. -/
  | changed {source kind : Primitive} :
    (value.computedType h.core r).numericKind? = some source → target.numericKind? = some kind →
    source ≠ .boolean → kind ≠ .boolean → conversionKind? source kind = none →
    Expansion h r value target checked (.changeType value target)

theorem expansion_toBoolean? (htarget : target.numericKind? = some .boolean)
    (hn : toBoolean? h.core value (value.computedType h.core r) = some n) :
    Expansion h r value target checked n := by
  unfold toBoolean? at hn
  split at hn
  · next hboolean =>
    cases hn
    exact .same (.truth htarget hboolean)
  · obtain ⟨zero, hzero, rfl⟩ := Option.map_eq_some_iff.mp hn
    split at hzero
    · obtain ⟨l, hl, rfl⟩ := Option.map_eq_some_iff.mp hzero
      refine .test htarget ?_
      unfold zeroOf? at hl
      split at hl
      · cases hl
        exact .float
      · exact .retyped hl
    · cases hzero
      exact .test htarget .null

theorem expansion_fromBoolean (htarget : target.numericKind?.isSome = true) :
    Expansion h r value target checked (fromBoolean h.core value target) := by
  obtain ⟨one, hone⟩ := Option.isSome_iff_exists.mp
    (Literal.isSome_retype? (l := .ofKind h.core .i4 1) rfl htarget)
  obtain ⟨zero, hzero⟩ := Option.isSome_iff_exists.mp
    (Literal.isSome_retype? (l := .ofKind h.core .i4 0) rfl htarget)
  unfold fromBoolean constantOf?
  rw [hone, hzero]
  exact .choice (.retyped hone) (.retyped hzero)

variable {emulateInt64 : Bool} {memo : AssignableMemo} {kind : Primitive}

theorem expansion_unwrapEnum (hsource : (value.computedType h.core r).enumUnderlying? = some kind) :
    Expansion h r value target checked (unwrapEnum h r value kind target checked) := by
  unfold unwrapEnum
  dsimp only
  split
  · next hequal => exact .integer hsource hequal
  · exact .integerCast hsource

theorem expansion_wrapEnum (source : Ty) (kind : Primitive)
    (hvalue : (value.computedType h.core r).enumUnderlying? = none)
    (htarget : target.enumUnderlying?.isSome = true) :
    Expansion h r value target checked (wrapEnum h value source target kind checked) := by
  unfold wrapEnum
  dsimp only
  split
  · exact .conversion
  · exact .member hvalue htarget

theorem expansion_numericCast {source : Primitive}
    (hsource : (value.computedType h.core r).numericKind? = some source)
    (htarget : target.numericKind? = some kind) (hne : source ≠ .boolean) (hne' : kind ≠ .boolean) :
    Expansion h r value target checked
      (numericCast emulateInt64 value source kind target checked) := by
  unfold numericCast
  split
  · exact .call
  · split
    · exact .conversion
    · next hnone => exact .changed hsource htarget hne hne' hnone

theorem expansion_expandNumeric?
    (hn : expandNumeric? h r emulateInt64 value (value.computedType h.core r) target checked = some n) :
    Expansion h r value target checked n := by
  unfold expandNumeric? at hn
  split at hn
  · next htarget => exact expansion_toBoolean? htarget hn
  · next htarget =>
    cases hn
    exact expansion_fromBoolean (by rw [htarget]; rfl)
  · next sourceKind targetKind hne hne' hsource htarget =>
    -- Neither kind is that of truth values: these went another way.
    split at hn
    · next hunderlying =>
      cases hn
      exact expansion_unwrapEnum hunderlying
    · next hnone =>
      split at hn
      · next henum =>
        cases hn
        exact expansion_wrapEnum _ _ hnone henum
      · cases hn
        refine expansion_numericCast hsource htarget ?_ ?_
        · rintro rfl
          exact hne' rfl
        · rintro rfl
          exact hne rfl
  · cases hn

theorem expansion_expandReference? (hsource : (value.computedType h.core r).numericKind? = none)
    (htarget : target.numericKind? = none)
    (hn : (expandReference? h value (value.computedType h.core r) target memo).1 = some n) :
    Expansion h r value target checked n := by
  unfold expandReference? at hn
  dsimp only at hn
  split at hn
  · cases hn
  · split at hn <;> cases hn
    · next hsame => exact .same (.equal hsame)
    · exact .upcast hsource htarget

theorem expansion_expandCast?
    (hn : (expandCast? h r emulateInt64 value target checked memo).1 = some n) :
    Expansion h r value target checked n := by
  unfold expandCast? at hn
  dsimp only at hn
  split at hn
  · cases hn
    exact .constant .null
  · split at hn
    · next hequal =>
      cases hn
      exact .same (.equal hequal)
    · split at hn
      · next constant hconstant =>
        cases hn
        unfold castConstant? at hconstant
        split at hconstant
        · obtain ⟨l, -, hl⟩ := Option.bind_eq_some_iff.mp hconstant
          exact .constant (.retyped hl)
        · cases hconstant
      · split at hn
        · next hnone =>
          rw [Bool.and_eq_true, Option.isNone_iff_eq_none, Option.isNone_iff_eq_none] at hnone
          exact expansion_expandReference? hnone.1 hnone.2 hn
        · exact expansion_expandNumeric? hn

variable {m : Node} {memo' : AssignableMemo}

/-- A replacement is the expansion of a cast. -/
theorem castExpansion_eq_some
    (hstep : (castExpansion h r emulateInt64).reduct? n memo = (.ok (some m), memo')) :
    ∃ target checked value rest, n = ⟨.cast target checked, value :: rest⟩
      ∧ (expandCast? h r emulateInt64 value target checked memo).1 = some m := by
  simp only [castExpansion] at hstep
  split at hstep
  · next target checked value rest =>
    obtain ⟨hm, -⟩ := Prod.mk.inj hstep
    exact ⟨target, checked, value, rest, rfl, Except.ok.inj hm⟩
  · cases hstep

theorem expansion_of_reduct
    (hstep : (castExpansion h r emulateInt64).reduct? n memo = (.ok (some m), memo')) :
    ∃ target checked value rest, n = ⟨.cast target checked, value :: rest⟩
      ∧ Expansion h r value target checked m := by
  obtain ⟨target, checked, value, rest, hn, hm⟩ := castExpansion_eq_some hstep
  exact ⟨target, checked, value, rest, hn, expansion_expandCast? hm⟩

/-! ### Nodes that are added -/

/-- The nodes that an expanded cast adds to the parts of the value. -/
inductive Added (h : Hierarchy) (r : Retyping) (value : Node) (target : Ty) (checked : Bool) :
    Node → Prop where
  | constant {l : Literal} : l.IsOf h.core target ∨ l.IsOf h.core (value.computedType h.core r) →
    Added h r value target checked (.literal l)
  | upcast : (value.computedType h.core r).numericKind? = none → target.numericKind? = none →
    Added h r value target checked (.changeType value target)
  | test {zero : Node} :
    Added h r value target checked (.binary .notEqual value zero h.core.boolean)
  | choice {one zero : Node} : Added h r value target checked (.ternary value one zero target)
  /-- The integer of an enumeration, from a member. -/
  | ofEnum {inner : Node} {kind : Primitive} : Added h r value target checked
    (.conversion inner .enumToInt (h.core.primitive kind) false)
  /-- The integer of an enumeration, read off a value below. -/
  | read {kind : Primitive} : (value.computedType h.core r).enumUnderlying? = some kind →
    innermost h.core r kind value ≠ value →
    Added h r value target checked
      (.changeType (innermost h.core r kind value) (h.core.primitive kind))
  | integerCast {kind : Primitive} :
    (value.computedType h.core r).enumUnderlying? = some kind →
    Added h r value target checked (.cast (enumInteger h r value kind) target checked)
  | memberCast {kind : Primitive} :
    Added h r value target checked (.cast value (h.core.primitive kind) checked)
  | conversion {operand : Node} {kind : ConversionKind} {checked' : Bool} :
    Added h r value target checked (.conversion operand kind target checked')
  | call {name : String} : Added h r value target checked (.intrinsic name target [value])
  | changed {source kind : Primitive} :
    (value.computedType h.core r).numericKind? = some source → target.numericKind? = some kind →
    source ≠ .boolean → kind ≠ .boolean → conversionKind? source kind = none →
    Added h r value target checked (.changeType value target)

theorem Added.computedType_cases (hm : Added h r value target checked m) :
    m.computedType h.core r = target ∨ m.computedType h.core r = value.computedType h.core r
      ∨ ∃ kind, m.computedType h.core r = h.core.primitive kind := by
  cases hm with
  | constant hl =>
    rcases hl with (htype | hkind) | (htype | hkind)
    · exact .inl htype
    · exact .inr (.inr hkind)
    · exact .inr (.inl htype)
    · exact .inr (.inr hkind)
  | upcast _ _ | choice | conversion | call | changed _ _ _ _ _ | integerCast _ => exact .inl rfl
  | test => exact .inr (.inr ⟨.boolean, rfl⟩)
  | @ofEnum _ kind | @read kind _ _ | @memberCast kind => exact .inr (.inr ⟨kind, rfl⟩)

/-- A tree whose nodes are parts of the value, or added to it. -/
def AddsTo (h : Hierarchy) (r : Retyping) (value : Node) (target : Ty) (checked : Bool)
    (m : Node) : Prop :=
  ∀ x ∈ m.selfAndDescendants, x ∈ value.selfAndDescendants ∨ Added h r value target checked x

theorem AddsTo.part (hm : m ∈ value.selfAndDescendants) : AddsTo h r value target checked m :=
  fun _ hx => .inl (Node.mem_selfAndDescendants_trans hx hm)

theorem AddsTo.node {form : Form} {operands : List Node}
    (hroot : Added h r value target checked ⟨form, operands⟩)
    (hoperands : ∀ o ∈ operands, AddsTo h r value target checked o) :
    AddsTo h r value target checked ⟨form, operands⟩ := by
  intro x hx
  rw [Node.selfAndDescendants_mk] at hx
  rcases List.mem_cons.mp hx with rfl | hbelow
  · exact .inr hroot
  · obtain ⟨o, ho, hx⟩ := List.mem_flatMap.mp hbelow
    exact hoperands o ho x hx

theorem AddsTo.literal (hl : l.IsOf h.core target ∨ l.IsOf h.core (value.computedType h.core r)) :
    AddsTo h r value target checked (.literal l) :=
  .node (.constant hl) fun _ ho => absurd ho List.not_mem_nil

theorem AddsTo.enumInteger (hvalue : (value.computedType h.core r).enumUnderlying? = some kind) :
    AddsTo h r value target checked (enumInteger h r value kind) := by
  have hinner := innermost_mem h.core r kind value
  have hreading := reading_enumInteger h r value kind
  generalize Canonical.enumInteger h r value kind = integer at hreading
  cases hreading with
  | same _ => exact .part hinner
  | ofEnum => exact .node .ofEnum (List.forall_mem_singleton.mpr (.part hinner))
  | changed hnone =>
    -- The value itself is a member of an enumeration, so the integer is read off another one.
    have hne : innermost h.core r kind value ≠ value := by
      intro hsame
      rw [hsame, hvalue] at hnone
      cases hnone
    exact .node (.read hvalue hne) (List.forall_mem_singleton.mpr (.part hinner))

theorem Expansion.part_or_added (hn : Expansion h r value target checked n) :
    AddsTo h r value target checked n := by
  have hself : AddsTo h r value target checked value := .part value.self_mem_selfAndDescendants
  have hsingle : ∀ o ∈ [value], AddsTo h r value target checked o :=
    List.forall_mem_singleton.mpr hself
  cases hn with
  | same _ => exact hself
  | constant hl => exact .literal (.inl hl.isOf)
  | upcast hsource htarget => exact .node (.upcast hsource htarget) hsingle
  | test _ hzero =>
    refine .node .test ?_
    rw [List.forall_mem_cons, List.forall_mem_singleton]
    exact ⟨hself, .literal (.inr hzero.isOf)⟩
  | choice hone hzero =>
    refine .node .choice ?_
    rw [List.forall_mem_cons, List.forall_mem_cons, List.forall_mem_singleton]
    exact ⟨hself, .literal (.inl hone.isOf), .literal (.inl hzero.isOf)⟩
  | integer hvalue _ => exact .enumInteger hvalue
  | integerCast hvalue =>
    exact .node (.integerCast hvalue) (List.forall_mem_singleton.mpr (.enumInteger hvalue))
  | member _ _ =>
    exact .node .conversion (List.forall_mem_singleton.mpr (.node .memberCast hsingle))
  | conversion => exact .node .conversion hsingle
  | call => exact .node .call hsingle
  | changed hsource htarget hne hne' hnone =>
    exact .node (.changed hsource htarget hne hne' hnone) hsingle

end Canonical

end ScriptLowering
