import ScriptLowering.Proofs.Canonical.CastTyping
import ScriptLowering.Proofs.Numeric.Range

/-!
# Expanded casts have the integers of the casts

A tree of integers stands for a word: a variable for what it holds, a constant for its value, an
unchecked cast or conversion for what a slot of its target kind holds afterwards, and a change of
type for what it changes the type of (`Node.integer?`). Casts are dropped, merged and folded because
the words of all nodes are in the range of their kinds (`Integers`); over types with kinds, what a
cast becomes stands for the word of the cast (`stands_expandCast?`), and so does what a whole chain
of casts becomes (`castExpansion_keeps_integer`).
-/

namespace ScriptLowering

open Script

/-- What a slot of a numeric type holds after a word is stored in it. -/
def Ty.store? (t : Ty) (v : Int64) : Option Int64 :=
  t.numericKind?.map (·.wrap v)

/-- The word that a tree of integers stands for, if variables hold those of `env`. -/
def Script.Node.integer? (env : Variable → Int64) : Node → Option Int64
  | ⟨.var v, []⟩ => some (env v)
  | ⟨.literal l, []⟩ => l.toInt64?
  | ⟨.cast t false, [value]⟩ => (value.integer? env).bind t.store?
  | ⟨.conversion _ t false, [value]⟩ => (value.integer? env).bind t.store?
  | ⟨.changeType _, [value]⟩ => value.integer? env
  | _ => none

namespace Canonical

variable {h : Hierarchy} {r : Retyping} {types : Ty → Prop} {env : Variable → Int64}
  {value : Node} {target : Ty} {k : Primitive} {x : Int64}

/-! ### Trees of integers -/

/-- A type of integers, with its kind. -/
structure IntegerType (types : Ty → Prop) (t : Ty) (k : Primitive) : Prop where
  mem : types t
  kind : t.numericKind? = some k
  integral : k.isIntegral = true

theorem IntegerType.kind_eq {l : Primitive} (ht : IntegerType types target k)
    (hl : target.numericKind? = some l) : k = l :=
  Option.some.inj (ht.kind.symm.trans hl)

/-- A node that stands for a word in the range of its kind. -/
structure IsInteger (c : Core) (r : Retyping) (types : Ty → Prop) (env : Variable → Int64)
    (n : Node) (k : Primitive) (x : Int64) : Prop where
  type : IntegerType types (n.computedType c r) k
  value : n.integer? env = some x
  holds : k.Holds x

/-- A tree of which all nodes stand for words in the ranges of their kinds. -/
def Integers (c : Core) (r : Retyping) (types : Ty → Prop) (env : Variable → Int64) (n : Node) :
    Prop :=
  ∀ m ∈ n.selfAndDescendants, ∃ k x, IsInteger c r types env m k x

variable {c : Core} {form : Form} {operands rest : List Node} {kind : Primitive}

theorem integers_mk :
    Integers c r types env ⟨form, operands⟩
      ↔ (∃ k x, IsInteger c r types env ⟨form, operands⟩ k x)
        ∧ ∀ o ∈ operands, Integers c r types env o := by
  simp only [Integers, Node.selfAndDescendants_mk, List.forall_mem_cons, List.forall_mem_flatMap]

variable {n : Node}

/-- The root of a tree of integers. -/
theorem Integers.root (hn : Integers c r types env n) : ∃ k x, IsInteger c r types env n k x :=
  hn n List.mem_cons_self

theorem Integers.root_of_value (hn : Integers c r types env n) (hx : n.integer? env = some x) :
    ∃ k, IsInteger c r types env n k x := by
  obtain ⟨k, y, hroot⟩ := hn.root
  have hxy : x = y := Option.some.inj (hx.symm.trans hroot.value)
  exact ⟨k, hxy ▸ hroot⟩

/-- A tree of integers that stands for a given word. -/
structure Stands (c : Core) (r : Retyping) (types : Ty → Prop) (env : Variable → Int64) (n : Node)
    (x : Int64) : Prop where
  integers : Integers c r types env n
  value : n.integer? env = some x

/-! ### Nodes over integers -/

section

variable (hvalue : Stands c r types env value x)
include hvalue

/-- A node that stores an integer. -/
theorem stands_store (ht : IntegerType types target k) (hrule : form.typeRule c r = .known target)
    (hform : Node.integer? env ⟨form, [value]⟩ = (value.integer? env).bind target.store?) :
    Stands c r types env ⟨form, [value]⟩ (k.wrap x) := by
  have hword : Node.integer? env ⟨form, [value]⟩ = some (k.wrap x) := by
    rw [hform, hvalue.value, Option.bind_some, Ty.store?, ht.kind, Option.map_some]
  have htype : Node.computedType c r ⟨form, [value]⟩ = target := by
    simp only [Node.computedType, hrule]
  refine ⟨integers_mk.mpr ⟨⟨k, k.wrap x, ?_, hword, Primitive.holds_wrap ht.integral⟩, ?_⟩, hword⟩
  · rw [htype]
    exact ht
  · exact List.forall_mem_singleton.mpr hvalue.integers

theorem stands_cast (ht : IntegerType types target k) :
    Stands c r types env (value.cast target false) (k.wrap x) :=
  stands_store hvalue ht rfl rfl

theorem stands_conversion (ht : IntegerType types target k) (kind : ConversionKind) :
    Stands c r types env (value.conversion kind target false) (k.wrap x) :=
  stands_store hvalue ht rfl rfl

theorem stands_changeType (ht : IntegerType types target k) (hholds : k.Holds x) :
    Stands c r types env (value.changeType target) x := by
  have hword : (value.changeType target).integer? env = some x := hvalue.value
  exact ⟨integers_mk.mpr ⟨⟨k, x, ht, hword, hholds⟩,
    List.forall_mem_singleton.mpr hvalue.integers⟩, hword⟩

end

/-- A constant in the range of its kind. -/
theorem stands_literal {l : Literal} (ht : IntegerType types (l.type c) k)
    (hx : l.toInt64? = some x) (hholds : k.Holds x) : Stands c r types env (.literal l) x := by
  have hword : (Node.literal l).integer? env = some x := hx
  exact ⟨integers_mk.mpr ⟨⟨k, x, ht, hword, hholds⟩, fun _ h => absurd h List.not_mem_nil⟩, hword⟩

/-! ### Looking under transparent forms -/

theorem integer?_of_isTransparent {operand : Node} (htransparent : isTransparent form = true)
    (hx : Node.integer? env ⟨form, operand :: rest⟩ = some x) :
    ∃ y, operand.integer? env = some y
      ∧ (x = y ∨ ∃ t, form.typeRule c r = .known t ∧ t.store? y = some x) := by
  unfold Node.integer? at hx
  split at hx
  case h_1 heq | h_2 heq => cases heq
  case h_3 t _ heq | h_4 t _ heq =>
    cases heq
    obtain ⟨y, hy, hstore⟩ := Option.bind_eq_some_iff.mp hx
    exact ⟨y, hy, .inr ⟨t, rfl, hstore⟩⟩
  case h_5 heq =>
    cases heq
    exact ⟨x, hx, .inl rfl⟩
  case h_6 => cases hx

theorem stands_operand {operand : Node} (htransparent : isTransparent form = true)
    (hvalue : Stands c r types env ⟨form, operand :: rest⟩ x)
    (hshape : hasShape kind (Node.computedType c r ⟨form, operand :: rest⟩) = true)
    (hoperand : hasShape kind (operand.computedType c r) = true) :
    Stands c r types env operand x := by
  obtain ⟨k, hroot⟩ := hvalue.integers.root_of_value hvalue.value
  have hintegers := (integers_mk.mp hvalue.integers).2 operand List.mem_cons_self
  obtain ⟨y, hy, hstored⟩ := integer?_of_isTransparent (c := c) (r := r) htransparent hvalue.value
  obtain ⟨l, hinner⟩ := hintegers.root_of_value hy
  suffices hxy : x = y from ⟨hintegers, hxy ▸ hy⟩
  rcases hstored with hkept | ⟨t, hrule, hstored⟩
  · exact hkept
  · -- The word is in range of the operand's kind, so the slot leaves it alone.
    have htype : Node.computedType c r ⟨form, operand :: rest⟩ = t := by
      simp only [Node.computedType, hrule]
    have houter := agree_of_hasShape hshape hroot.type.kind
    have hlower := agree_of_hasShape hoperand hinner.type.kind
    have hholds : k.Holds y := hinner.holds.of_shape hinner.type.integral hroot.type.integral
      (hlower.1.trans houter.1.symm) (hlower.2.trans houter.2.symm)
    have hkind : t.numericKind? = some k := htype ▸ hroot.type.kind
    rw [Ty.store?, hkind, Option.map_some] at hstored
    rw [← Option.some.inj hstored, (Primitive.wrap_eq_self_iff hroot.type.integral).mpr hholds]

theorem stands_innermost (hvalue : Stands c r types env value x)
    (hshape : hasShape kind (value.computedType c r) = true) :
    Stands c r types env (innermost c r kind value) x
      ∧ hasShape kind ((innermost c r kind value).computedType c r) = true := by
  fun_induction innermost c r kind value with
  | case1 => exact ⟨hvalue, hshape⟩
  | case2 form operand rest hthrough ih =>
    obtain ⟨htransparent, hoperand⟩ := Bool.and_eq_true_iff.mp hthrough
    exact ih (stands_operand htransparent hvalue hshape hoperand) hoperand
  | case3 => exact ⟨hvalue, hshape⟩

/-! ### What a cast becomes -/

section

variable (hw : h.KindsAgree types)
include hw

/-- A core primitive of an integer kind. -/
theorem integerType_primitive (hk : k.isIntegral = true) :
    IntegerType types (h.core.primitive k) k :=
  ⟨hw.core k, rfl, hk⟩

theorem stands_enumInteger (hvalue : Stands h.core r types env value x)
    (hk : k.isIntegral = true) (hkind : (value.computedType h.core r).numericKind? = some k) :
    Stands h.core r types env (enumInteger h r value k) x := by
  have hshape : hasShape k (value.computedType h.core r) = true := by simp [hasShape, hkind]
  obtain ⟨hinner, hinnerShape⟩ := stands_innermost hvalue hshape
  have hprimitive := integerType_primitive hw hk
  -- The word was in range of the kind before transparent forms were left out, and still is.
  have hholds : k.Holds x := by
    obtain ⟨l, hroot⟩ := hinner.integers.root_of_value hinner.value
    obtain ⟨hsize, hsigned⟩ := agree_of_hasShape hinnerShape hroot.type.kind
    exact hroot.holds.of_shape hroot.type.integral hk hsize hsigned
  have hreading := reading_enumInteger h r value k
  generalize enumInteger h r value k = integer at hreading
  cases hreading with
  | same => exact hinner
  | ofEnum =>
    have hconverted := stands_conversion hinner hprimitive .enumToInt
    rw [(Primitive.wrap_eq_self_iff hk).mpr hholds] at hconverted
    exact hconverted
  | changed => exact stands_changeType hinner hprimitive hholds

variable {l : Primitive}

/-- Types that are equal have one kind. -/
theorem IntegerType.eq_of_equal {source : Ty} (ht : IntegerType types target k)
    (hs : IntegerType types source l) (heq : h.equal target source true = true) : k = l :=
  ht.kind_eq ((hw.equal _ _ ht.mem hs.mem heq).trans hs.kind)

theorem stands_unwrapEnum (hvalue : Stands h.core r types env value x) (hk : k.isIntegral = true)
    (hkind : (value.computedType h.core r).numericKind? = some k) (ht : IntegerType types target l) :
    Stands h.core r types env (unwrapEnum h r value k target false) (l.wrap x) := by
  have hinteger := stands_enumInteger hw hvalue hk hkind
  unfold unwrapEnum
  dsimp only
  split
  · -- The target is the primitive of the kind, so the word is in its range.
    next heq =>
    obtain rfl := ht.eq_of_equal hw (integerType_primitive hw hk) heq
    obtain ⟨k, hroot⟩ := hvalue.integers.root_of_value hvalue.value
    obtain rfl := hroot.type.kind_eq hkind
    rw [(Primitive.wrap_eq_self_iff hk).mpr hroot.holds]
    exact hinteger
  · exact stands_cast hinteger ht

theorem stands_wrapEnum (source : Ty) (hvalue : Stands h.core r types env value x)
    (ht : IntegerType types target k) :
    Stands h.core r types env (wrapEnum h value source target k false) (k.wrap x) := by
  have hprimitive := integerType_primitive hw ht.integral
  unfold wrapEnum
  dsimp only
  split
  · exact stands_conversion hvalue ht .intToEnum
  · -- The word is stored twice in slots of one kind.
    have hconverted := stands_conversion (stands_cast hvalue hprimitive) ht .intToEnum
    have htwice : k.wrap (k.wrap x) = k.wrap x :=
      (Primitive.wrap_eq_self_iff ht.integral).mpr (Primitive.holds_wrap ht.integral)
    rw [htwice] at hconverted
    exact hconverted

omit hw in
theorem shape_of_conversionKind? (hk : k.isIntegral = true) (hl : l.isIntegral = true)
    (hnone : conversionKind? k l = none) : k.size = l.size ∧ k.isSigned = l.isSigned := by
  have hkFloating : k.isFloating = false := by cases k <;> first | rfl | cases hk
  have hlFloating : l.isFloating = false := by cases l <;> first | rfl | cases hl
  unfold conversionKind? at hnone
  rw [hkFloating, hlFloating] at hnone
  dsimp only at hnone
  split at hnone
  · cases hnone
  · split at hnone
    · cases hnone
    · split at hnone
      · cases hnone
      · next hsigned =>
        simp only [bne_iff_ne, ne_eq, not_not] at hsigned
        exact ⟨by omega, hsigned.symm⟩

omit hw in
theorem stands_numericCast (hvalue : Stands h.core r types env value x)
    (hkind : (value.computedType h.core r).numericKind? = some k) (ht : IntegerType types target l) :
    Stands h.core r types env (numericCast false value k l target false) (l.wrap x) := by
  obtain ⟨k', hroot⟩ := hvalue.integers.root_of_value hvalue.value
  obtain rfl := hroot.type.kind_eq hkind
  unfold numericCast
  rw [if_neg (by simp)]
  split
  · exact stands_conversion hvalue ht _
  · -- Without a conversion the kinds have one range, in which the word is.
    next hnone =>
    obtain ⟨hsize, hsigned⟩ := shape_of_conversionKind? hroot.type.integral ht.integral hnone
    have hholds := hroot.holds.of_shape hroot.type.integral ht.integral hsize hsigned
    rw [(Primitive.wrap_eq_self_iff ht.integral).mpr hholds]
    exact stands_changeType hvalue ht hholds

theorem expandNumeric?_of_integerType {source : Ty} {emulateInt64 checked : Bool}
    (hs : IntegerType types source l) (ht : IntegerType types target k) :
    expandNumeric? h r emulateInt64 value source target checked
      = some (if source.enumUnderlying?.isSome then unwrapEnum h r value l target checked
          else if target.enumUnderlying?.isSome then wrapEnum h value source target k checked
          else numericCast emulateInt64 value l k target checked) := by
  have hboolean : ∀ {k : Primitive}, k.isIntegral = true → k ≠ .boolean := by
    rintro _ hk rfl
    cases hk
  rw [expandNumeric?, hs.kind, ht.kind]
  split
  · next heq => exact absurd (Option.some.inj heq) (hboolean ht.integral)
  · next heq _ => exact absurd (Option.some.inj heq) (hboolean hs.integral)
  · next hsourceKind htargetKind =>
    cases hsourceKind
    cases htargetKind
    split
    · next kind hunderlying =>
      obtain rfl := hs.kind_eq (hw.enumerations _ kind hs.mem hunderlying)
      rw [hunderlying]
      rfl
    · next hunderlying =>
      rw [hunderlying]
      split <;> rfl
  · next hno => exact absurd rfl (hno l k rfl)

theorem stands_expandNumeric? (hvalue : Stands h.core r types env value x)
    (ht : IntegerType types target k)
    (hn : expandNumeric? h r false value (value.computedType h.core r) target false = some n) :
    Stands h.core r types env n (k.wrap x) := by
  obtain ⟨l, hroot⟩ := hvalue.integers.root_of_value hvalue.value
  rw [expandNumeric?_of_integerType hw hroot.type ht] at hn
  cases hn
  split
  · exact stands_unwrapEnum hw hvalue hroot.type.integral hroot.type.kind ht
  · split
    · exact stands_wrapEnum hw _ hvalue ht
    · exact stands_numericCast hvalue hroot.type.kind ht

omit hw in
theorem toInt64?_charOfInt64 : (Literal.charOfInt64 x).toInt64? = some (Primitive.char.wrap x) := by
  -- A character is unsigned and narrow, so its word is a number below its modulus.
  have hword : (Primitive.char.wrap x).toInt = x.toInt % Primitive.char.modulus :=
    Primitive.toInt_wrap rfl (by decide)
  rw [show (Primitive.char.modulus : Int) = 65536 from rfl] at hword
  have hsmall : (Primitive.char.wrap x).toInt.toNat < UInt16.size := by
    show _ < 65536
    omega
  have hnonneg : 0 ≤ (Primitive.char.wrap x).toInt := by omega
  rw [Literal.charOfInt64, Literal.toInt64?, UInt16.toNat_ofNat_of_lt' hsmall,
    Int.toNat_of_nonneg hnonneg, Int64.ofInt_toInt]

omit hw in
/-- The word of a constant. -/
theorem toInt64?_of_literal? {l : Literal} (hl : value.literal? = some l)
    (hx : value.integer? env = some x) : l.toInt64? = some x := by
  obtain ⟨form, operands⟩ := value
  unfold Node.literal? at hl
  split at hl
  · next hform =>
    cases hl
    obtain rfl : form = .literal l := hform
    cases operands with
    | nil => rwa [Node.integer?] at hx
    | cons _ _ => simp [Node.integer?] at hx
  · cases hl

omit hw in
/-- An absent value stands for no word. -/
theorem isNullLiteral_of_integer? (hx : value.integer? env = some x) :
    value.isNullLiteral = false := by
  unfold Node.isNullLiteral
  cases hl : value.literal? with
  | none => rfl
  | some l =>
    have hword := toInt64?_of_literal? hl hx
    cases l <;> first | rfl | cases hword

theorem stands_retype? {l l' : Literal} (hx : l.toInt64? = some x)
    (ht : IntegerType types target k) (hretype : l.retype? target = some l') :
    Stands h.core r types env (.literal l') (k.wrap x) := by
  have hholds : k.Holds (k.wrap x) := Primitive.holds_wrap ht.integral
  unfold Literal.retype? at hretype
  obtain ⟨value, hvalue, hretype⟩ := Option.bind_eq_some_iff.mp hretype
  have hxv : value = x := Option.some.inj (hvalue.symm.trans hx)
  subst hxv
  split at hretype
  · -- The target is not the type of truth values.
    next hboolean =>
    have hkind := ht.kind
    rw [Ty.numericKind?, beq_iff_eq.mp hboolean] at hkind
    cases hkind
    exact absurd ht.integral (by decide)
  · split at hretype
    · -- The constant of an enumeration has the kind that the type stores.
      next kind hunderlying =>
      cases hretype
      obtain rfl := ht.kind_eq (hw.enumerations _ kind ht.mem hunderlying)
      exact stands_literal ht rfl hholds
    · obtain ⟨kind, hprimitive, hretype⟩ := Option.bind_eq_some_iff.mp hretype
      have hkind := ht.kind
      rw [Ty.numericKind?, hprimitive] at hkind
      cases hkind
      split at hretype
      · cases hretype
        exact stands_literal (integerType_primitive hw rfl) toInt64?_charOfInt64 hholds
      · exact absurd ht.integral (by decide)
      · exact absurd ht.integral (by decide)
      · cases hretype
      · cases hretype
        exact stands_literal ht rfl hholds

theorem stands_expandCast? {memo : AssignableMemo} (hvalue : Stands h.core r types env value x)
    (ht : IntegerType types target k)
    (hn : (expandCast? h r false value target false memo).1 = some n) :
    Stands h.core r types env n (k.wrap x) := by
  obtain ⟨l, hroot⟩ := hvalue.integers.root_of_value hvalue.value
  unfold expandCast? at hn
  dsimp only at hn
  split at hn
  · -- An absent value is no integer.
    next hnull =>
    have hnot := isNullLiteral_of_integer? hvalue.value
    rw [(Bool.and_eq_true_iff.mp hnull).1] at hnot
    cases hnot
  · split at hn
    · next heq =>
      cases hn
      obtain rfl := ht.eq_of_equal hw hroot.type heq
      rw [(Primitive.wrap_eq_self_iff ht.integral).mpr hroot.holds]
      exact hvalue
    · split at hn
      · next constant hconstant =>
        cases hn
        unfold castConstant? at hconstant
        rw [if_pos (by rw [hroot.type.kind]; rfl)] at hconstant
        obtain ⟨literal, hliteral, hretype⟩ := Option.bind_eq_some_iff.mp hconstant
        exact stands_retype? hw (toInt64?_of_literal? hliteral hvalue.value) ht hretype
      · rw [hroot.type.kind] at hn
        exact stands_expandNumeric? hw hvalue ht hn

end

/-! ### The whole reduction -/

theorem integer?_congr {operands' : List Node}
    (hoperands : List.Forall₂ (fun o o' => o'.integer? env = o.integer? env) operands operands') :
    Node.integer? env ⟨form, operands'⟩ = Node.integer? env ⟨form, operands⟩ := by
  cases hoperands with
  | nil => rfl
  | cons hfirst hrest =>
    cases hrest with
    | nil =>
      cases form
      case cast t checked => cases checked <;> simp [Node.integer?, hfirst]
      case conversion kind t checked => cases checked <;> simp [Node.integer?, hfirst]
      all_goals simp [Node.integer?, hfirst]
    | cons _ _ => cases form <;> simp [Node.integer?]

theorem typeRule_of_integer? (hx : Node.integer? env ⟨form, operands⟩ = some x) :
    ∃ t, form.typeRule c r = .known t := by
  unfold Node.integer? at hx
  split at hx
  all_goals first | cases hx; done | skip
  all_goals
    next heq =>
    cases heq
    exact ⟨_, rfl⟩

theorem integer?_cast {checked : Bool}
    (hx : Node.integer? env ⟨.cast target checked, value :: rest⟩ = some x) :
    checked = false ∧ ∃ y, value.integer? env = some y ∧ target.store? y = some x := by
  unfold Node.integer? at hx
  split at hx
  · next heq => cases heq
  · next heq => cases heq
  · next heq =>
    cases heq
    exact ⟨rfl, Option.bind_eq_some_iff.mp hx⟩
  · next heq => cases heq
  · next heq => cases heq
  · cases hx

theorem castExpansion_integers (hw : h.KindsAgree types) :
    (castExpansion h r false).Law (Integers h.core r types env)
      (fun n m => m.integer? env = n.integer? env) (fun _ => True) where
  refl _ := rfl
  trans hnm hmk := hmk.trans hnm
  operand hn := (integers_mk.mp hn).2
  step := by
    intro n m memo memo' hn hstep
    obtain ⟨target, checked, value, rest, rfl, hm⟩ := castExpansion_eq_some hstep
    obtain ⟨⟨k, x, hroot⟩, hoperands⟩ := integers_mk.mp hn
    obtain ⟨rfl, y, hy, hstore⟩ := integer?_cast hroot.value
    have ht : IntegerType types target k := hroot.type
    have hstands := stands_expandCast? hw ⟨hoperands value List.mem_cons_self, hy⟩ ht hm
    rw [Ty.store?, ht.kind, Option.map_some] at hstore
    rw [Option.some.inj hstore] at hstands
    exact ⟨hstands.integers, hstands.value.trans hroot.value.symm⟩
  congr := by
    intro form operands operands' hn hbecome
    have hoperands := Reducer.forall_mem_right (fun _ _ ho => ho.invariant) hbecome
    have hword : Node.integer? env ⟨form, operands'⟩ = Node.integer? env ⟨form, operands⟩ :=
      integer?_congr (hbecome.imp fun _ _ ho => ho.related)
    obtain ⟨⟨k, x, hroot⟩, -⟩ := integers_mk.mp hn
    -- What stands for a word has its type by its form, so its kind stays, and with it the range.
    obtain ⟨t, hrule⟩ := typeRule_of_integer? (c := h.core) (r := r) hroot.value
    have htype : ∀ ns, Node.computedType h.core r ⟨form, ns⟩ = t := fun ns => by
      simp only [Node.computedType, hrule]
    have htyped : IntegerType types (Node.computedType h.core r ⟨form, operands'⟩) k := by
      rw [htype, ← htype operands]
      exact hroot.type
    exact ⟨integers_mk.mpr ⟨⟨k, x, htyped, hword.trans hroot.value, hroot.holds⟩, hoperands⟩, hword⟩
  finish := fun _ _ _ => trivial

/-- Nested unchecked casts over a variable or a constant, each between types of integers. The
variable holds a word in the range of its kind, and the constant is one. -/
inductive CastChain (c : Core) (r : Retyping) (types : Ty → Prop) (env : Variable → Int64) :
    Node → Prop where
  | ofVariable (v : Variable) (k : Primitive) : IntegerType types (r.typeOf v) k → k.Holds (env v) →
    CastChain c r types env ⟨.var v, []⟩
  | ofLiteral (l : Literal) (x : Int64) (k : Primitive) : l.toInt64? = some x →
    IntegerType types (l.type c) k → k.Holds x → CastChain c r types env (.literal l)
  | cast (value : Node) (target : Ty) (k : Primitive) : CastChain c r types env value →
    IntegerType types target k → CastChain c r types env (value.cast target false)

theorem CastChain.stands (hn : CastChain c r types env n) : ∃ x, Stands c r types env n x := by
  induction hn with
  | ofVariable v k ht hholds =>
    have hword : Node.integer? env ⟨.var v, []⟩ = some (env v) := by rw [Node.integer?]
    have hroot : IsInteger c r types env ⟨.var v, []⟩ k (env v) := ⟨ht, hword, hholds⟩
    exact ⟨env v, integers_mk.mpr ⟨⟨k, env v, hroot⟩, fun _ h => absurd h List.not_mem_nil⟩, hword⟩
  | ofLiteral l x k hx ht hholds => exact ⟨x, stands_literal ht hx hholds⟩
  | cast value target k _ ht ih =>
    obtain ⟨x, hvalue⟩ := ih
    exact ⟨k.wrap x, stands_cast hvalue ht⟩

/-- Over types with kinds, expanding a chain of casts keeps the word that it stands for. -/
theorem castExpansion_keeps_integer (hw : h.KindsAgree types) {n n' : Node} {limit : Nat}
    {changed : Bool} {memo memo' : AssignableMemo} (hn : CastChain h.core r types env n)
    (hrun : (castExpansion h r false).run limit n memo = (.ok changed, n', memo')) :
    ∃ x, n.integer? env = some x ∧ n'.integer? env = some x := by
  obtain ⟨x, hintegers, hx⟩ := hn.stands
  obtain ⟨⟨-, hkept⟩, -⟩ := (castExpansion_integers hw).run hintegers hrun
  exact ⟨x, hx, hkept.trans hx⟩

/-- A word that is made a choice and then a byte. -/
def byteOfChoice : Node :=
  ((held (Core.standard.primitive .i8)).cast choice false).cast (Core.standard.primitive .u1) false

/-- Of the word 300 the casts to a choice and to a byte leave 44, and so does what they become. -/
theorem byteOfChoice_keeps_integer :
    ∃ n' memo', expandCasts.run 64 byteOfChoice .empty = (.ok true, n', memo')
      ∧ ∃ x, byteOfChoice.integer? (fun _ => 300) = some x
        ∧ n'.integer? (fun _ => 300) = some x ∧ x = 44 := by
  have hchain : CastChain .standard .empty (Ty.Regular (· ∈ Ty.primitivesAnd [choice]) True)
      (fun _ => 300) byteOfChoice := by
    refine .cast _ _ .u1 (.cast _ _ .i4 (.ofVariable _ .i8 ?_ (by decide)) ?_) ?_
    · exact ⟨faithful_choice.regular_primitive .i8, rfl, rfl⟩
    · exact ⟨regular_choice, rfl, rfl⟩
    · exact ⟨faithful_choice.regular_primitive .u1, rfl, rfl⟩
  have hchanged : (expandCasts.run 64 byteOfChoice .empty).1.toOption = some true := by
    decide +kernel
  have hword : byteOfChoice.integer? (fun _ => 300) = some 44 := by decide +kernel
  rcases hrun : expandCasts.run 64 byteOfChoice .empty with ⟨e | changed, n', memo'⟩ <;>
    rw [hrun] at hchanged <;> cases hchanged
  obtain ⟨x, hx, hx'⟩ := castExpansion_keeps_integer faithful_choice.kindsAgree hchain hrun
  exact ⟨n', memo', rfl, x, hx, hx', Option.some.inj (hx.symm.trans hword)⟩

/-- An enumeration `App.Color` of a module. -/
def colorIn (id : Nat) (file : String) (kind : Primitive) : Ty :=
  .named (.plain id "App" "Color" (.ofFile file) (.enumeration kind))

/-- A color of the program as a color of the library, which has a byte for it. -/
def colorOfLibrary : Node :=
  (Node.literal (.ofEnum (colorIn 40 "App.exe" .i4) 300)).cast (colorIn 41 "App.dll" .u1) false

/-- The two enumerations are equal, so the constant is not brought into the range of a byte. -/
theorem colorOfLibrary_changes_integer :
    CastChain .standard .empty (fun _ => True) (fun _ => 0) colorOfLibrary
      ∧ (expandCasts.run 64 colorOfLibrary .empty).1.isOk = true
      ∧ colorOfLibrary.integer? (fun _ => 0) = some 44
      ∧ (expandCasts.run 64 colorOfLibrary .empty).2.1.integer? (fun _ => 0) = some 300 := by
  refine ⟨?_, by decide +kernel, by decide +kernel, by decide +kernel⟩
  exact .cast _ _ .u1 (.ofLiteral _ 300 .i4 rfl ⟨trivial, rfl, rfl⟩ (by decide)) ⟨trivial, rfl, rfl⟩

end Canonical

end ScriptLowering
