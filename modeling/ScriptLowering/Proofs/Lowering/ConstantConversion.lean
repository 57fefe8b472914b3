import ScriptLowering.Proofs.Lowering.TruthValue

/-!
# Checked conversions of constants

A checked conversion of an integer constant is folded when the word of the constant is one of the
destination, and a negative word is none of an unsigned destination. But an unsigned 64-bit integer
is kept as its bits, and from half of its range on these are a negative word, which a signed
destination takes for what it is. `checked_constant_kept_iff` says that this is the only way in
which a folded constant differs from the one that was converted, and that it always does then; it
happens (`maximal_word_folded`).
-/

namespace ScriptLowering

open Script

/-! ### Words and their integers -/

namespace Primitive

variable {k l kind : Primitive} {v : Int64}

/-- The integer that a word stands for when it is read as unsigned: that of a signed kind becomes
the unsigned one of its width. -/
def unsignedNumber (k : Primitive) (v : Int64) : Int :=
  if k.isSigned then v.toInt % k.modulus else k.number v

theorem number_of_ne (hk : k ≠ u8) : k.number v = v.toInt :=
  if_neg hk

theorem number_le_of_ne (hk : k ≠ u8) : k.number v ≤ i8.greatest := by
  have hhigh := v.toInt_lt
  have hgreatest : i8.greatest = 2 ^ 63 - 1 := rfl
  rw [number_of_ne hk]
  omega

theorem ne_u8_of_isSigned (hk : k.isSigned = true) : k ≠ u8 := by
  rintro rfl
  cases hk

theorem number_of_shape (hk : k.isIntegral = true) (hl : l.isIntegral = true)
    (hsize : k.size = l.size) (hsigned : k.isSigned = l.isSigned) : k.number v = l.number v := by
  have hu8 : ∀ {j : Primitive}, j.isIntegral = true →
      (j = u8 ↔ j.size = 8 ∧ j.isSigned = false) := by
    intro j hj
    cases j <;> decide +revert
  by_cases h : k = u8
  · have hl8 : l = u8 := (hu8 hl).mpr (hsize ▸ hsigned ▸ (hu8 hk).mp h)
    rw [h, hl8]
  · have hl8 : l ≠ u8 := fun h8 => h ((hu8 hk).mpr (hsize.symm ▸ hsigned.symm ▸ (hu8 hl).mp h8))
    rw [number_of_ne h, number_of_ne hl8]

theorem number_u8 : u8.number v = if v.toInt < 0 then v.toInt + u8.modulus else v.toInt := by
  have hlow := v.le_toInt
  have hhigh := v.toInt_lt
  rw [number, if_pos rfl, show (u8.modulus : Int) = 2 ^ 64 from rfl]
  split <;> omega

theorem number_eq_iff (hneg : v < 0 → kind.isSigned = true) :
    kind.number v = k.number v ↔ kind.isSigned = false ∨ k.number v ≤ i8.greatest := by
  have hlow := v.le_toInt
  have hgreatest : i8.greatest = 2 ^ 63 - 1 := rfl
  have hmodulus : (u8.modulus : Int) = 2 ^ 64 := rfl
  rw [Int64.lt_iff_toInt_lt] at hneg
  cases hsigned : kind.isSigned with
  | true =>
    -- A signed kind reads the word as it is, and an unsigned one as something too great for it.
    rw [number_of_ne (ne_u8_of_isSigned hsigned)]
    by_cases hk : k = u8
    · rw [hk, number_u8]
      split
      · refine ⟨fun heq => ?_, fun hle => ?_⟩
        · omega
        · rcases hle with hfalse | hle
          · cases hfalse
          · omega
      · exact ⟨fun _ => .inr (number_le_of_ne (k := i8) (by decide)), fun _ => rfl⟩
    · exact ⟨fun _ => .inr (number_le_of_ne hk), fun _ => (number_of_ne hk).symm⟩
  | false =>
    have hnonneg : ¬ v.toInt < 0 := fun hlt => by
      rw [hneg hlt] at hsigned
      cases hsigned
    have hread : ∀ j : Primitive, j.number v = v.toInt := fun j => by
      by_cases hj : j = u8
      · rw [hj, number_u8, if_neg hnonneg]
      · exact number_of_ne hj
    exact ⟨fun _ => .inl rfl, fun _ => (hread kind).trans (hread k).symm⟩

theorem number_wrap_toUnsigned? (hsigned : k.isSigned = true) (hl : k.toUnsigned? = some l) :
    l.number (l.wrap v) = k.unsignedNumber v := by
  obtain ⟨hintegral, hunsigned, hmodulus⟩ :
      l.isIntegral = true ∧ l.isSigned = false ∧ l.modulus = k.modulus := by
    cases k <;> cases hl <;> exact ⟨rfl, rfl, rfl⟩
  rw [unsignedNumber, if_pos hsigned, ← hmodulus]
  rcases isInt64_or_size_lt hintegral with hint64 | hsize
  · have hu8 : l = u8 := by
      cases l <;> first | rfl | (cases hint64; done) | cases hunsigned
    rw [wrap_of_isInt64 hint64, hu8]
    rfl
  · rw [number_of_size_lt hsize, toInt_wrap hintegral hsize, if_neg (by simp [hunsigned])]

end Primitive

/-! ### Folded constants -/

namespace Script

variable {c : Core} {l l' : Literal} {k kind : Primitive} {v : Int64}

/-- A constant of an integer type, with the kind of the type and the word of the constant. -/
structure Literal.IsWord (c : Core) (l : Literal) (k : Primitive) (v : Int64) : Prop where
  kind : (l.type c).numericKind? = some k
  integral : k.isIntegral = true
  word : l.toInt64? = some v

theorem Literal.isWord_integer (c : Core) (hk : k.isIntegral = true) (v : Int64) :
    (Literal.integer v (c.primitive k)).IsWord c k v :=
  ⟨rfl, hk, rfl⟩

theorem Node.computedType_of_literal? {n : Node} {r : Retyping} (hn : n.literal? = some l) :
    n.computedType c r = l.type c := by
  obtain ⟨form, operands⟩ := n
  unfold Node.literal? at hn
  split at hn
  · next hform =>
    cases hn
    obtain rfl : form = .literal l := hform
    rw [Node.computedType]
    rfl
  · cases hn

end Script

namespace Lowering

variable {c : Core} {r : Retyping} {l l' : Literal} {k kind : Primitive} {v : Int64}

/-- The integer that a conversion reads a word of a kind as. -/
def numberRead (code : Cil.Opcode) (k : Primitive) (v : Int64) : Int :=
  if code.isUnsignedSource then k.unsignedNumber v else k.number v

/-- A folded constant stands for an integer that was converted, unless it was too great. -/
def Kept (kind : Primitive) (l : Literal) (number : Int) : Prop :=
  ∃ v, l.toInt64? = some v
    ∧ (kind.number v = number ↔ kind.isSigned = false ∨ number ≤ Primitive.i8.greatest)

theorem kept_of_sameRepresentation (hl : l.IsWord c k v) (hkind : kind.isIntegral = true)
    (hsame : sameRepresentation (l.type c) kind = true) : Kept kind l (k.number v) := by
  refine ⟨v, hl.word, ?_⟩
  have hshape : k.size = kind.size ∧ k.isSigned = kind.isSigned := by
    have hprimitive := hl.kind
    unfold sameRepresentation at hsame
    split at hsame
    · next source hsource =>
      rw [Ty.numericKind?, hsource] at hprimitive
      cases hprimitive
      by_cases heq : k = kind
      · exact heq ▸ ⟨rfl, rfl⟩
      · simp only [beq_eq_false_iff_ne.mpr heq, Bool.false_or, Bool.and_eq_true, beq_iff_eq]
          at hsame
        exact ⟨hsame.1.2, hsame.2⟩
    · cases hsame
  refine ⟨fun _ => ?_, fun _ => ?_⟩
  · cases hsigned : kind.isSigned with
    | false => exact .inl rfl
    | true =>
      have hk : k ≠ .u8 := Primitive.ne_u8_of_isSigned (hshape.2.trans hsigned)
      exact .inr (Primitive.number_le_of_ne hk)
  · exact Primitive.number_of_shape hkind hl.integral hshape.1.symm hshape.2.symm

/-- A constant that is folded with a check. -/
theorem kept_of_foldConversion? (hl : l.IsWord c k v) (hkind : kind.isIntegral = true)
    (hchar : kind ≠ .char) (hfold : foldConversion? c l kind true = some l') :
    Kept kind l' (k.number v) := by
  have hfloating : kind.isFloating = false := by
    cases kind <;> first | rfl | cases hkind
  have hinteger : foldInteger? c v kind true = some l' := by
    have hword := hl.word
    unfold foldConversion? at hfold
    split at hfold
    · cases hword
    all_goals first
      | cases hfold
      | rw [hword, Option.bind_some, hfloating] at hfold
        exact hfold
  unfold foldInteger? at hinteger
  rw [hkind, if_neg (by decide)] at hinteger
  dsimp only at hinteger
  split at hinteger
  · cases hinteger
  · next hfits =>
    cases hinteger
    simp only [Bool.true_and, Bool.or_eq_true, bne_iff_ne, ne_eq, Bool.and_eq_true,
      decide_eq_true_eq, Bool.not_eq_true', not_or, not_not, not_and, Bool.not_eq_false] at hfits
    refine ⟨v, congrArg some hfits.1, Primitive.number_eq_iff hfits.2⟩

theorem isWord_asUnsigned {n : Node} (hn : n.literal? = some l) (hl : l.IsWord c k v)
    (hl' : (asUnsigned c r n).literal? = some l') :
    ∃ k' v', l'.IsWord c k' v' ∧ k'.number v' = k.unsignedNumber v := by
  unfold asUnsigned unsignedReading? at hl'
  rw [Node.computedType_of_literal? hn, hl.kind] at hl'
  dsimp only at hl'
  rw [hl.integral, Bool.true_and] at hl'
  cases hsigned : k.isSigned with
  | false =>
    rw [hsigned, if_neg Bool.false_ne_true] at hl'
    have heq : l = l' := Option.some.inj (hn.symm.trans hl')
    exact ⟨k, v, heq ▸ hl, by rw [Primitive.unsignedNumber, hsigned, if_neg Bool.false_ne_true]⟩
  | true =>
    -- The literal of a signed kind is wrapped into the unsigned kind of the same size.
    rw [hsigned, if_pos rfl] at hl'
    obtain ⟨unsigned, hunsigned⟩ : ∃ unsigned, k.toUnsigned? = some unsigned := by
      have hk := hl.integral
      cases k <;> first | exact ⟨_, rfl⟩ | cases hk
    rw [hunsigned] at hl'
    dsimp only at hl'
    split at hl'
    · next value type hform =>
      cases hl'
      have hvalue : v = value := by
        unfold Node.literal? at hn
        rw [hform] at hn
        cases hn
        exact (Option.some.inj hl.word).symm
      subst hvalue
      have hintegral : unsigned.isIntegral = true := by
        cases k <;> cases hunsigned <;> rfl
      exact ⟨unsigned, unsigned.wrap v, Literal.isWord_integer c hintegral _,
        Primitive.number_wrap_toUnsigned? hsigned hunsigned⟩
    · cases hl'

/-! ### The instruction -/

theorem isIntegral_of_conversion? {code : Cil.Opcode}
    (hcode : code.conversion? = some (kind, true)) : kind.isIntegral = true ∧ kind ≠ .char := by
  unfold Cil.Opcode.conversion? at hcode
  split at hcode <;> cases hcode <;> decide

theorem ruleOf_of_conversion? {code : Cil.Opcode} {checked : Bool}
    (hcode : code.conversion? = some (kind, checked)) :
    ruleOf code = .conversion kind checked := by
  unfold Cil.Opcode.conversion? at hcode
  split at hcode <;> cases hcode <;> rfl

/-- What a value that has been read is converted to. -/
def conversionOf (c : Core) (r : Retyping) (value : Node) (kind : Primitive) (checked : Bool) :
    Node :=
  if sameRepresentation (value.computedType c r) kind then
    value
  else
    match value.literal?.bind (foldConversion? c · kind checked) with
    | some constant => .literal constant
    | none => .cast value (c.primitive kind) checked

/-- A checked conversion of a constant. -/
theorem kept_of_conversionOf {value : Node} (hvalue : value.literal? = some l)
    (hl : l.IsWord c k v) (hkind : kind.isIntegral = true) (hchar : kind ≠ .char)
    (hl' : (conversionOf c r value kind true).literal? = some l') : Kept kind l' (k.number v) := by
  unfold conversionOf at hl'
  rw [Node.computedType_of_literal? hvalue, hvalue, Option.bind_some] at hl'
  split at hl'
  · next hsame =>
    cases hvalue.symm.trans hl'
    exact kept_of_sameRepresentation hl hkind hsame
  · split at hl'
    · next constant hfold =>
      cases hl'
      exact kept_of_foldConversion? hl hkind hchar hfold
    · cases hl'

theorem exists_of_conversionOf {value : Node} {checked : Bool}
    (hl' : (conversionOf c r value kind checked).literal? = some l') :
    ∃ l, value.literal? = some l := by
  cases hvalue : value.literal? with
  | some l => exact ⟨l, rfl⟩
  | none =>
    unfold conversionOf at hl'
    rw [hvalue] at hl'
    split at hl'
    · exact absurd hl' (by simp [hvalue])
    · cases hl'

variable {g : Lowerer} {e : Cil.Expr} {s s' : State} {n : Node}

theorem Lowerer.conversion_answers {checked : Bool}
    (hrun : (g.conversion e kind checked).run s = (.ok n, s')) :
    ∃ a operand, e.arguments[0]? = some a
      ∧ (g.raw a).run s = (.ok operand, s')
      ∧ n = conversionOf g.core s'.context.scope.retyping
          (if e.code.isUnsignedSource then asUnsigned g.core s'.context.scope.retyping operand
            else operand) kind checked := by
  unfold Lowerer.conversion at hrun
  obtain ⟨a, s₁, ha, hrest⟩ := exists_run_of_bind hrun
  obtain ⟨hargument, rfl⟩ := run_argument ha
  obtain ⟨operand, s₂, hoperand, hreading⟩ := exists_run_of_bind hrest
  refine ⟨a, operand, hargument, ?_⟩
  -- However the operand is read, what follows is the same, and nothing changes the state.
  cases hunsigned : e.code.isUnsignedSource
  all_goals
    rw [hunsigned] at hreading
    obtain ⟨value, s₃, hvalue, hread⟩ := exists_run_of_bind hreading
    cases hvalue
    obtain ⟨type, s₄, htype, hlast⟩ := exists_run_of_bind hread
    cases htype
    clear hreading hread hrest hrun
    unfold conversionOf
    split at hlast
    · next hsame =>
      cases hlast
      exact ⟨hoperand, (if_pos hsame).symm⟩
    · next hother =>
      split at hlast
      · next constant hfold =>
        cases hlast
        exact ⟨hoperand, by simp [hother, hfold]⟩
      · next hnone =>
        cases hlast
        exact ⟨hoperand, by simp [hother, hnone]⟩

/-- A constant that a checked conversion of a constant is folded to stands for the integer that the
conversion reads, unless the destination is signed and the integer is too great for a signed word:
then it always stands for another one. -/
theorem checked_constant_kept_iff (g : Lowerer) (e : Cil.Expr)
    (hcode : e.code.conversion? = some (kind, true)) {a : Cil.Expr}
    (hargument : e.arguments[0]? = some a) {s s₁ s' : State} {n n' : Node}
    (hoperand : ((g.raw a).run s : Except Error Node × State) = (.ok n, s₁))
    (hn : n.literal? = some l) (hl : l.IsWord g.core k v)
    (hrun : ((g.apply e (ruleOf e.code)).run s : Except Error Node × State) = (.ok n', s'))
    (hn' : n'.literal? = some l') :
    ∃ v', l'.toInt64? = some v'
      ∧ (kind.number v' = numberRead e.code k v
        ↔ kind.isSigned = false ∨ numberRead e.code k v ≤ Primitive.i8.greatest) := by
  obtain ⟨hkind, hchar⟩ := isIntegral_of_conversion? hcode
  rw [ruleOf_of_conversion? hcode] at hrun
  obtain ⟨a', operand, hargument', hoperand', rfl⟩ := Lowerer.conversion_answers hrun
  obtain rfl : a = a' := Option.some.inj (hargument.symm.trans hargument')
  rw [hoperand] at hoperand'
  cases hoperand'
  change Kept kind l' (numberRead e.code k v)
  unfold numberRead
  split at hn'
  · -- Read as unsigned first, the operand is a word of another kind with the number that is read.
    next hunsigned =>
    rw [if_pos hunsigned]
    obtain ⟨read, hread⟩ := exists_of_conversionOf hn'
    obtain ⟨k', v', hword, hnumber⟩ := isWord_asUnsigned hn hl hread
    exact hnumber ▸ kept_of_conversionOf hread hword hkind hchar hn'
  · next hplain =>
    rw [if_neg hplain]
    exact kept_of_conversionOf hn hl hkind hchar hn'

/-! ### Words that are folded -/

/-- The kind and the word of the integer constant that a run answers. -/
def wordOf? (result : Except Error Node × State) : Option (Primitive × Int64) :=
  result.1.toOption.bind fun n => n.literal?.bind fun l =>
    (l.type .standard).numericKind?.bind fun k => l.toInt64?.map fun v => (k, v)

/-- A run that answers an integer constant. -/
theorem exists_of_wordOf? {result : Except Error Node × State} (hk : k.isIntegral = true)
    (h : wordOf? result = some (k, v)) :
    ∃ n s' l, result = (.ok n, s') ∧ n.literal? = some l ∧ l.IsWord .standard k v := by
  obtain ⟨n, hn, h⟩ := Option.bind_eq_some_iff.mp h
  obtain ⟨l, hl, h⟩ := Option.bind_eq_some_iff.mp h
  obtain ⟨k', hkind, h⟩ := Option.bind_eq_some_iff.mp h
  obtain ⟨v', hword, heq⟩ := Option.map_eq_some_iff.mp h
  obtain ⟨rfl, rfl⟩ := Prod.mk.inj heq
  obtain ⟨_ | n', s'⟩ := result <;> cases hn
  exact ⟨n, s', l, rfl, hl, hkind, hk, hword⟩

/-- What the first operand of an instruction is lowered to in a plain run. -/
def operandLoweredTo (e a : Cil.Expr) : Except Error Node × State :=
  ((plainLowerer e).raw a).run ⟨.start true 512, .start⟩

/-- The negative 32-bit word that is read as unsigned becomes the positive 64-bit word. -/
theorem unsigned_reading_folded :
    let a : Cil.Expr := .plain .ldcI4 (.int32 (-1)) []
    let e : Cil.Expr := .plain .convOvfI8Un .none [a]
    ∃ n n' s₁ s' l l', operandLoweredTo e a = (.ok n, s₁) ∧ n.literal? = some l
      ∧ l.IsWord .standard .i4 (-1) ∧ loweredTo e = (.ok n', s') ∧ n'.literal? = some l'
      ∧ l'.toInt64? = some 4294967295
      ∧ Primitive.i8.number 4294967295 = numberRead e.code .i4 (-1) := by
  intro a e
  have hread : wordOf? (operandLoweredTo e a) = some (.i4, -1) := by decide +kernel
  have hfolded : wordOf? (loweredTo e) = some (.i8, 4294967295) := by decide +kernel
  obtain ⟨n, s₁, l, hoperand, hn, hl⟩ := exists_of_wordOf? rfl hread
  obtain ⟨n', s', l', hrun, hn', hl'⟩ := exists_of_wordOf? rfl hfolded
  refine ⟨n, n', s₁, s', l, l', hoperand, hn, hl, hrun, hn', hl'.word, ?_⟩
  obtain ⟨v', hv', hiff⟩ := checked_constant_kept_iff _ e rfl rfl hoperand hn hl hrun hn'
  obtain rfl : 4294967295 = v' := Option.some.inj (hl'.word.symm.trans hv')
  exact hiff.mpr (.inr (by decide))

/-- The greatest unsigned word is folded to the negative one: when a signed word is read as
unsigned, and when an unsigned word is converted to a narrower signed one. -/
theorem maximal_word_folded :
    let word : Cil.Expr := .plain .ldcI8 (.int64 (-1)) []
    ∀ x ∈ [(Cil.Opcode.convOvfI8Un, word, Primitive.i8, Primitive.i8),
        (.convOvfI4, .plain .convU8 .none [word], .u8, .i4)],
      let e : Cil.Expr := .plain x.1 .none [x.2.1]
      x.1.conversion? = some (x.2.2.2, true)
        ∧ wordOf? (operandLoweredTo e x.2.1) = some (x.2.2.1, -1)
        ∧ wordOf? (loweredTo e) = some (x.2.2.2, -1)
        ∧ x.2.2.2.number (-1) ≠ numberRead e.code x.2.2.1 (-1) := by
  decide +kernel

end Lowering

end ScriptLowering
