import ScriptLowering.Proofs.Canonical.CastMeaning

/-!
# Overflow checks of casts

A checked cast between integers is always expanded. What it becomes makes the check of the cast
(`Checks`), or the cast could not fail, with three exceptions. An integer constant becomes a constant
of the target, whatever its value is (`literal_of_constant?`). Where 64-bit integers are emulated, a
cast between primitives from or to them becomes a call of the runtime, which has no checked form
(`checks_numericCast`). An absent value becomes one of the target, if that admits one.
`check_lost_iff` says that these are the only casts that lose their check, and when they do.
-/

namespace ScriptLowering

open Script

/-- The value of a node that is an integer, enumeration, character or truth constant. -/
def Script.Node.constant? (n : Node) : Option Int64 :=
  n.literal?.bind (·.toInt64?)

namespace Canonical

variable {h : Hierarchy} {r : Retyping} {types : Ty → Prop} {value n : Node} {target : Ty}
  {source k : Primitive} {memo : AssignableMemo} {emulateInt64 : Bool}

/-- What checks that a value of the kind `source` is in the range of the kind `k`: a checked cast or
conversion to a type of that kind, of the value or of its integer, and a member of an enumeration
that is made of one. -/
inductive Checks (h : Hierarchy) (r : Retyping) (value : Node) (source k : Primitive) :
    Node → Prop where
  | cast {operand : Node} {t : Ty} : operand = value ∨ operand = enumInteger h r value source →
    t.numericKind? = some k → Checks h r value source k (operand.cast t true)
  | conversion {kind : ConversionKind} {t : Ty} : t.numericKind? = some k →
    Checks h r value source k (value.conversion kind t true)
  | member {n : Node} {t : Ty} : Checks h r value source k n → t.numericKind? = some k →
    Checks h r value source k (n.conversion .intToEnum t false)

theorem not_checks_literal (l : Literal) : ¬ Checks h r value source k (.literal l) :=
  nofun

theorem not_checks_intrinsic (name : String) (type : Ty) (operands : List Node) :
    ¬ Checks h r value source k (.intrinsic name type operands) :=
  nofun

/-- Whether a cast between kinds is left to the runtime for 64-bit integers. -/
def isEmulated (emulateInt64 : Bool) (sourceType target : Ty) (source k : Primitive) : Bool :=
  emulateInt64 && (source.isInt64 || k.isInt64) && sourceType.enumUnderlying?.isNone
    && target.enumUnderlying?.isNone

/-- Whether a cast of an absent value is an absent value of the target. -/
def isAbsent (value : Node) (target : Ty) : Bool :=
  value.isNullLiteral && (!target.isValueType || target.isNullable)

/-! ### Where the check goes -/

section

variable (hw : h.KindsAgree types)
  (hsource : IntegerType types (value.computedType h.core r) source)
  (htarget : IntegerType types target k)
include hw hsource htarget

theorem contains_of_equal (heq : h.equal target (value.computedType h.core r) true = true) :
    k.Contains source := by
  rw [htarget.eq_of_equal hw hsource heq]
  exact Primitive.contains_of_shape rfl rfl

omit hsource in
theorem checks_unwrapEnum :
    k.Contains source
      ∨ Checks h r value source k (unwrapEnum h r value source target true) := by
  unfold unwrapEnum
  dsimp only
  split
  · next heq =>
    rw [htarget.kind_eq (hw.equal _ _ htarget.mem (hw.core source) heq)]
    exact .inl (Primitive.contains_of_shape rfl rfl)
  · exact .inr (.cast (.inr rfl) htarget.kind)

theorem checks_wrapEnum :
    k.Contains source
      ∨ Checks h r value source k
          (wrapEnum h value (value.computedType h.core r) target k true) := by
  unfold wrapEnum
  dsimp only
  split
  · next heq =>
    rw [hsource.kind_eq (hw.equal _ _ hsource.mem (hw.core k) heq)]
    exact .inl (Primitive.contains_of_shape rfl rfl)
  · exact .inr (.member (.cast (.inl rfl) rfl) htarget.kind)

omit hw in
theorem checks_numericCast :
    (emulateInt64 && (source.isInt64 || k.isInt64)) = true
        ∧ numericCast emulateInt64 value source k target true
          = .intrinsic (int64Call source k) target [value]
      ∨ (emulateInt64 && (source.isInt64 || k.isInt64)) = false
        ∧ (k.Contains source
          ∨ Checks h r value source k (numericCast emulateInt64 value source k target true)) := by
  unfold numericCast
  split
  · next hcall => exact .inl ⟨hcall, rfl⟩
  · next hcall =>
    refine .inr ⟨Bool.eq_false_iff.mpr hcall, ?_⟩
    split
    · exact .inr (.conversion htarget.kind)
    · -- Kinds without a conversion have one range.
      next hnone =>
      obtain ⟨hsize, hsigned⟩ :=
        shape_of_conversionKind? hsource.integral htarget.integral hnone
      exact .inl (Primitive.contains_of_shape hsize.symm hsigned.symm)

theorem checks_expandNumeric?
    (hn : expandNumeric? h r emulateInt64 value (value.computedType h.core r) target true
      = some n) :
    isEmulated emulateInt64 (value.computedType h.core r) target source k = true
        ∧ n = .intrinsic (int64Call source k) target [value]
      ∨ isEmulated emulateInt64 (value.computedType h.core r) target source k = false
        ∧ (k.Contains source ∨ Checks h r value source k n) := by
  rw [expandNumeric?_of_integerType hw hsource htarget] at hn
  cases hn
  split
  · next henum =>
    exact .inr ⟨by simp [isEmulated, Option.isNone_eq_false_iff.mpr henum],
      checks_unwrapEnum hw htarget⟩
  · next hsourceEnum =>
    split
    · next henum =>
      exact .inr ⟨by simp [isEmulated, Option.isNone_eq_false_iff.mpr henum],
        checks_wrapEnum hw hsource htarget⟩
    · next htargetEnum =>
      have hemulated : isEmulated emulateInt64 (value.computedType h.core r) target source k
          = (emulateInt64 && (source.isInt64 || k.isInt64)) := by
        rw [Option.not_isSome_iff_eq_none] at hsourceEnum htargetEnum
        simp [isEmulated, hsourceEnum, htargetEnum]
      rw [hemulated]
      exact checks_numericCast hsource htarget

theorem literal_of_constant? {x : Int64} (hx : value.constant? = some x)
    (hn : (expandCast? h r emulateInt64 value target true memo).1 = some n) :
    k.Contains source ∨ ∃ l, n = .literal l := by
  obtain ⟨l, hl, hvalue⟩ := Option.bind_eq_some_iff.mp hx
  have hretype : (l.retype? target).isSome = true :=
    Literal.isSome_retype? (by rw [hvalue]; rfl) (by rw [htarget.kind]; rfl)
  have hconstant : castConstant? value (value.computedType h.core r) target = l.retype? target := by
    rw [castConstant?, hsource.kind, if_pos (by rfl), hl, Option.bind_some]
  unfold expandCast? at hn
  dsimp only at hn
  split at hn
  · cases hn
    exact .inr ⟨_, rfl⟩
  · split at hn
    · next heq => exact .inl (contains_of_equal hw hsource htarget heq)
    · -- Folding succeeds for every value, in range or not.
      obtain ⟨l', hl'⟩ := Option.isSome_iff_exists.mp hretype
      rw [hconstant, hl'] at hn
      cases hn
      exact .inr ⟨l', rfl⟩

/-- A checked cast of anything else. -/
theorem checks_expandCast? (hx : value.constant? = none)
    (hn : (expandCast? h r emulateInt64 value target true memo).1 = some n) :
    k.Contains source
      ∨ isAbsent value target = true ∧ n = .nullOf target
      ∨ isEmulated emulateInt64 (value.computedType h.core r) target source k = true
        ∧ n = .intrinsic (int64Call source k) target [value]
      ∨ isAbsent value target = false
        ∧ isEmulated emulateInt64 (value.computedType h.core r) target source k = false
        ∧ Checks h r value source k n := by
  -- A value that is no constant is not folded, whatever literal it may be.
  have hconstant : castConstant? value (value.computedType h.core r) target = none := by
    rw [castConstant?, hsource.kind, if_pos (by rfl)]
    cases hl : value.literal? with
    | none => rfl
    | some l =>
      have hvalue : l.toInt64? = none := by simpa [Node.constant?, hl] using hx
      rw [Option.bind_some, Literal.retype?, hvalue]
      rfl
  unfold expandCast? at hn
  dsimp only at hn
  rw [hconstant, hsource.kind, htarget.kind] at hn
  split at hn
  · next habsent =>
    cases hn
    exact .inr (.inl ⟨habsent, rfl⟩)
  · next habsent =>
    split at hn
    · next heq => exact .inl (contains_of_equal hw hsource htarget heq)
    · rcases checks_expandNumeric? hw hsource htarget hn with hcall | ⟨hcall, hcontains | hchecks⟩
      · exact .inr (.inr (.inl hcall))
      · exact .inl hcontains
      · exact .inr (.inr (.inr ⟨Bool.eq_false_iff.mpr habsent, hcall, hchecks⟩))

end

/-! ### Which checks are lost -/

/-- The replacement of a checked cast does not check, though the cast could fail: the range of the
source exceeds that of the target, and the value is no constant in the range of the target. -/
structure LosesCheck (h : Hierarchy) (r : Retyping) (value : Node) (source k : Primitive)
    (n : Node) : Prop where
  unchecked : ¬ Checks h r value source k n
  exceeds : ¬ k.Contains source
  unfit : ∀ x, value.constant? = some x → ¬ k.InRange (source.number x)

/-- A checked cast between integers is expanded, and its check is lost exactly if the range of the
source exceeds that of the target and either the value is a constant out of the range of the target,
or it is no constant and is absent, or left to the runtime for 64-bit integers. -/
theorem check_lost_iff (hw : h.KindsAgree types)
    (hsource : IntegerType types (value.computedType h.core r) source)
    (htarget : IntegerType types target k) (emulateInt64 : Bool) (rest : List Node)
    (memo : AssignableMemo) :
    ∃ n memo', (castExpansion h r emulateInt64).reduct? ⟨.cast target true, value :: rest⟩ memo
        = (.ok (some n), memo')
      ∧ (LosesCheck h r value source k n
        ↔ ¬ k.Contains source
          ∧ ((∃ x, value.constant? = some x ∧ ¬ k.InRange (source.number x))
            ∨ value.constant? = none
              ∧ (isAbsent value target = true
                ∨ isEmulated emulateInt64 (value.computedType h.core r) target source k
                  = true))) := by
  have hsome : (expandCast? h r emulateInt64 value target true memo).1.isSome = true :=
    isSome_expandCast? (by rw [hsource.kind]; rfl) (by rw [htarget.kind]; rfl)
  obtain ⟨n, hn⟩ := Option.isSome_iff_exists.mp hsome
  refine ⟨n, (expandCast? h r emulateInt64 value target true memo).2, ?_, ?_⟩
  · rw [← hn]
    rfl
  cases hx : value.constant? with
  | some x =>
    -- The replacement is a constant, so what counts is the value.
    have hliteral := literal_of_constant? hw hsource htarget hx hn
    constructor
    · intro hlost
      exact ⟨hlost.exceeds, .inl ⟨x, rfl, hlost.unfit x hx⟩⟩
    · rintro ⟨hexceeds, ⟨y, hy, hunfit⟩ | ⟨hnone, -⟩⟩
      · obtain ⟨l, rfl⟩ := hliteral.resolve_left hexceeds
        refine ⟨not_checks_literal l, hexceeds, fun z hz => ?_⟩
        have hzy : z = y := Option.some.inj (hz.symm.trans (hx.trans hy))
        rw [hzy]
        exact hunfit
      · cases hnone
  | none =>
    -- The four ways a cast can go exclude each other where its range is exceeded.
    have hchecks := checks_expandCast? hw hsource htarget hx hn
    constructor
    · rintro ⟨hunchecked, hexceeds, -⟩
      rcases hchecks with hcontains | ⟨habsent, -⟩ | ⟨hcall, -⟩ | ⟨-, -, hchecked⟩
      · exact absurd hcontains hexceeds
      · exact ⟨hexceeds, .inr ⟨rfl, .inl habsent⟩⟩
      · exact ⟨hexceeds, .inr ⟨rfl, .inr hcall⟩⟩
      · exact absurd hchecked hunchecked
    · rintro ⟨hexceeds, ⟨y, hy, -⟩ | ⟨-, hreason⟩⟩
      · cases hy
      · refine ⟨fun hchecked => ?_, hexceeds, fun x hx' => ?_⟩
        · rcases hchecks with hcontains | ⟨-, rfl⟩ | ⟨-, rfl⟩ | ⟨habsent, hcall, -⟩
          · exact hexceeds hcontains
          · exact not_checks_literal _ hchecked
          · exact not_checks_intrinsic _ _ _ hchecked
          · rw [habsent, hcall] at hreason
            exact hreason.elim nofun nofun
        · rw [hx] at hx'
          cases hx'

/-- The check of a cast from a choice to a byte is not lost. -/
theorem choice_check_kept :
    ∃ n memo', expandCasts.reduct? ((held choice).cast (Core.standard.primitive .u1) true) .empty
        = (.ok (some n), memo')
      ∧ ¬ LosesCheck (.ofCore .standard) .empty (held choice) .i4 .u1 n := by
  have hsource : IntegerType (Ty.Regular (· ∈ Ty.primitivesAnd [choice]) True)
      ((held choice).computedType .standard .empty) .i4 := ⟨regular_choice, rfl, rfl⟩
  have htarget : IntegerType (Ty.Regular (· ∈ Ty.primitivesAnd [choice]) True)
      (Core.standard.primitive .u1) .u1 := ⟨faithful_choice.regular_primitive .u1, rfl, rfl⟩
  obtain ⟨n, memo', hstep, hlost⟩ :=
    check_lost_iff faithful_choice.kindsAgree hsource htarget false [] .empty
  refine ⟨n, memo', hstep, fun hloses => ?_⟩
  rcases (hlost.mp hloses).2 with ⟨x, hx, -⟩ | ⟨-, habsent | hcall⟩
  · cases hx
  · cases habsent
  · cases hcall

/-- The 32-bit constant 300. -/
def threeHundred : Node :=
  .literal (.ofKind .standard .i4 300)

/-- The constant 300 is made a byte without a check, and so is an emulated word made a 32-bit
integer. -/
theorem overflow_check_lost :
    (∃ n memo', expandCasts.reduct? (threeHundred.cast (Core.standard.primitive .u1) true) .empty
        = (.ok (some n), memo')
      ∧ n.constant? = some 44 ∧ LosesCheck (.ofCore .standard) .empty threeHundred .i4 .u1 n)
    ∧ ∃ n memo', (castExpansion (.ofCore .standard) .empty true).reduct?
          ((held (Core.standard.primitive .i8)).cast (Core.standard.primitive .i4) true) .empty
        = (.ok (some n), memo')
      ∧ n = .intrinsic "Int64ToNumber" (Core.standard.primitive .i4)
          [held (Core.standard.primitive .i8)]
      ∧ LosesCheck (.ofCore .standard) .empty (held (Core.standard.primitive .i8)) .i8 .i4 n := by
  refine ⟨⟨_, _, rfl, rfl, not_checks_literal _, by decide, ?_⟩,
    ⟨_, _, rfl, rfl, not_checks_intrinsic _ _ _, by decide, ?_⟩⟩
  · intro x hx
    cases hx
    decide
  · intro x hx
    cases hx

end Canonical

end ScriptLowering
