import ScriptLowering.Numeric.Primitive

/-!
# Ranges of integer kinds

A word stands for an integer of a kind: its signed value, or for the unsigned 64-bit kind its
unsigned one. `Primitive.Holds` says that the integer is in the range of the kind. Storing a word in
a slot brings it into range (`holds_wrap`), leaves alone exactly the words that are in range
(`wrap_eq_self_iff`) and treats congruent words alike (`wrap_eq_of_emod_eq`). So it is reduction to
the range, also by way of a slot that is as wide or wider (`wrap_is_reduction`). Width and
signedness decide about range and storing (`wrap_eq_of_shape`, `contains_of_shape`).
-/

namespace ScriptLowering.Primitive

variable {k l : Primitive} {v : Int64}

/-- The least integer of a kind. -/
def least (k : Primitive) : Int :=
  if k.isSigned then -(k.modulus / 2 : Nat) else 0

/-- The greatest integer of a kind. -/
def greatest (k : Primitive) : Int :=
  if k.isSigned then (k.modulus / 2 : Nat) - 1 else k.modulus - 1

/-- The integer that a word stands for. -/
def number (k : Primitive) (v : Int64) : Int :=
  if k = u8 then v.toInt % k.modulus else v.toInt

/-- Whether an integer is in the range of a kind. -/
def InRange (k : Primitive) (i : Int) : Prop :=
  k.least ≤ i ∧ i ≤ k.greatest

instance : DecidablePred k.InRange :=
  fun _ => inferInstanceAs (Decidable (_ ∧ _))

/-- A word that stands for an integer in the range of a kind. -/
def Holds (k : Primitive) (v : Int64) : Prop :=
  k.InRange (k.number v)

instance : DecidablePred k.Holds :=
  fun _ => inferInstanceAs (Decidable (InRange _ _))

/-- The range of a kind contains that of another one. -/
def Contains (k l : Primitive) : Prop :=
  k.least ≤ l.least ∧ l.greatest ≤ k.greatest

instance : Decidable (k.Contains l) :=
  inferInstanceAs (Decidable (_ ∧ _))

/-! ### Storing in narrow slots -/

/-- A narrow kind lacks a byte. -/
theorem modulus_mul_le (hsize : k.size < 8) : k.modulus * 256 ≤ u8.modulus := by
  have hbits : 8 * k.size + 8 ≤ 64 := by omega
  calc k.modulus * 256 = 2 ^ (8 * k.size + 8) := (Nat.pow_add 2 (8 * k.size) 8).symm
    _ ≤ 2 ^ 64 := Nat.pow_le_pow_right (by decide) hbits

theorem modulus_eq_two_mul : k.modulus = 2 * (k.modulus / 2) := by
  cases k <;> rfl

theorem ne_boolean (hk : k.isIntegral = true) : k ≠ boolean := by
  rintro rfl
  cases hk

/-- The integer in a narrow slot. -/
theorem toInt_wrap (hk : k.isIntegral = true) (hsize : k.size < 8) :
    (k.wrap v).toInt = if k.isSigned then v.toInt.bmod k.modulus else v.toInt % k.modulus := by
  have hwidth := modulus_mul_le hsize
  have hwords : u8.modulus = 2 ^ 64 := rfl
  have hpos : 0 < k.modulus := Nat.two_pow_pos _
  rw [wrap, if_neg (ne_boolean hk), if_pos (by simp [hk, hsize])]
  split
  · have heven := k.modulus_eq_two_mul
    have hlow := Int.le_bmod (x := v.toInt) hpos
    have hhigh := Int.bmod_lt (x := v.toInt) hpos
    exact Int64.toInt_ofInt_of_le (by omega) (by omega)
  · have hlow : 0 ≤ v.toInt % k.modulus := Int.emod_nonneg _ (by omega)
    have hhigh : v.toInt % k.modulus < k.modulus := Int.emod_lt_of_pos _ (by omega)
    exact Int64.toInt_ofInt_of_le (by omega) (by omega)

/-- Words keep all bits. -/
theorem wrap_of_isInt64 (hk : k.isInt64 = true) : k.wrap v = v := by
  cases k <;> first | rfl | cases hk

theorem isInt64_or_size_lt (hk : k.isIntegral = true) : k.isInt64 = true ∨ k.size < 8 := by
  cases k <;> first | decide | cases hk

theorem holds_of_isInt64 (hk : k.isInt64 = true) : k.Holds v := by
  have hlow := v.le_toInt
  have hhigh := v.toInt_lt
  cases k <;> first | cases hk; done | skip
  case i8 =>
    show -(2 ^ 63 : Int) ≤ v.toInt ∧ v.toInt ≤ 2 ^ 63 - 1
    omega
  case u8 =>
    show (0 : Int) ≤ v.toInt % 2 ^ 64 ∧ v.toInt % 2 ^ 64 ≤ 2 ^ 64 - 1
    omega

theorem number_of_size_lt (hsize : k.size < 8) : k.number v = v.toInt := by
  have hne : k ≠ u8 := by
    rintro rfl
    exact absurd hsize (by decide)
  rw [number, if_neg hne]

/-- The words in the range of a narrow kind. -/
theorem holds_iff_of_size_lt (hsize : k.size < 8) :
    k.Holds v ↔ if k.isSigned then -(k.modulus / 2 : Nat) ≤ v.toInt ∧ v.toInt < (k.modulus / 2 : Nat)
      else 0 ≤ v.toInt ∧ v.toInt < k.modulus := by
  rw [Holds, InRange, number_of_size_lt hsize, least, greatest]
  split <;> omega

/-! ### Storing and ranges -/

/-- What is stored in a slot is in range. -/
theorem holds_wrap (hk : k.isIntegral = true) : k.Holds (k.wrap v) := by
  rcases isInt64_or_size_lt hk with hint64 | hsize
  · exact holds_of_isInt64 hint64
  · have hpos : 0 < k.modulus := Nat.two_pow_pos _
    rw [holds_iff_of_size_lt hsize, toInt_wrap hk hsize]
    cases k.isSigned with
    | true =>
      -- The balanced remainder lies in a range that is symmetric, as the modulus is even.
      have heven := k.modulus_eq_two_mul
      have hlow := Int.le_bmod (x := v.toInt) hpos
      have hhigh := Int.bmod_lt (x := v.toInt) hpos
      rw [if_pos rfl, if_pos rfl]
      omega
    | false => exact ⟨Int.emod_nonneg _ (by omega), Int.emod_lt_of_pos _ (by omega)⟩

theorem wrap_eq_self_iff (hk : k.isIntegral = true) : k.wrap v = v ↔ k.Holds v := by
  refine ⟨fun h => h ▸ holds_wrap hk, fun hholds => ?_⟩
  rcases isInt64_or_size_lt hk with hint64 | hsize
  · exact wrap_of_isInt64 hint64
  · rw [holds_iff_of_size_lt hsize] at hholds
    rw [← Int64.toInt_inj, toInt_wrap hk hsize]
    split at hholds
    · next hsigned =>
      have heven := k.modulus_eq_two_mul
      rw [if_pos hsigned]
      exact Int.bmod_eq_of_le (by omega) (by omega)
    · next hunsigned =>
      rw [if_neg hunsigned]
      exact Int.emod_eq_of_lt hholds.1 hholds.2

/-! ### Congruent words -/

theorem emod_wrap (hk : k.isIntegral = true) :
    (k.wrap v).toInt % k.modulus = v.toInt % k.modulus := by
  rcases isInt64_or_size_lt hk with hint64 | hsize
  · rw [wrap_of_isInt64 hint64]
  · rw [toInt_wrap hk hsize]
    split
    · exact Int.bmod_emod
    · exact Int.emod_emod ..

/-- Congruent words are stored alike. -/
theorem wrap_eq_of_emod_eq {w : Int64} (hk : k.isIntegral = true)
    (h : v.toInt % k.modulus = w.toInt % k.modulus) : k.wrap v = k.wrap w := by
  rw [← Int64.toInt_inj]
  rcases isInt64_or_size_lt hk with hint64 | hsize
  · -- Words are no further apart than there are words.
    have hwords : (k.modulus : Int) = 2 ^ 64 := by
      cases k <;> first | rfl | cases hint64
    have hv := v.le_toInt
    have hw := w.le_toInt
    have hv' := v.toInt_lt
    have hw' := w.toInt_lt
    rw [hwords] at h
    rw [wrap_of_isInt64 hint64, wrap_of_isInt64 hint64]
    omega
  · rw [toInt_wrap hk hsize, toInt_wrap hk hsize]
    split
    · rw [← Int.emod_bmod, h, Int.emod_bmod]
    · exact h

theorem modulus_dvd_of_size_le (hsize : k.size ≤ l.size) : (k.modulus : Int) ∣ l.modulus :=
  Int.natCast_dvd_natCast.mpr (Nat.pow_dvd_pow 2 (Nat.mul_le_mul_left 8 hsize))

theorem wrap_wrap_of_size_le (hk : k.isIntegral = true) (hl : l.isIntegral = true)
    (hsize : k.size ≤ l.size) : k.wrap (l.wrap v) = k.wrap v := by
  have hdvd := modulus_dvd_of_size_le hsize
  apply wrap_eq_of_emod_eq hk
  calc (l.wrap v).toInt % k.modulus
      = (l.wrap v).toInt % l.modulus % k.modulus := (Int.emod_emod_of_dvd _ hdvd).symm
    _ = v.toInt % l.modulus % k.modulus := by rw [emod_wrap hl]
    _ = v.toInt % k.modulus := Int.emod_emod_of_dvd _ hdvd

/-- What a slot of an integer kind holds after a word is stored in it is congruent to the word modulo
the number of values of the kind, and in its range; exactly the words in range stay as they are. It
is the same if the word is first stored in a slot that is at least as wide, of either sign. -/
theorem wrap_is_reduction (hk : k.isIntegral = true) (v : Int64) :
    (k.wrap v).toInt % k.modulus = v.toInt % k.modulus
      ∧ k.Holds (k.wrap v)
      ∧ (k.wrap v = v ↔ k.Holds v)
      ∧ ∀ l : Primitive, l.isIntegral = true → k.size ≤ l.size →
        k.wrap (l.wrap v) = k.wrap v :=
  ⟨emod_wrap hk, holds_wrap hk, wrap_eq_self_iff hk,
    fun _ hl hsize => wrap_wrap_of_size_le hk hl hsize⟩

/-- Minus one is another integer in an unsigned slot of 32 bits, and itself again in a signed slot of
16 bits. -/
theorem wrap_minus_one :
    u4.wrap (-1) = 4294967295 ∧ i2.wrap 4294967295 = -1 := by
  obtain ⟨-, -, hself, hthrough⟩ := wrap_is_reduction (k := i2) rfl (-1)
  have hunsigned : u4.wrap (-1) = 4294967295 := by decide
  refine ⟨hunsigned, ?_⟩
  rw [← hunsigned, hthrough u4 rfl (by decide)]
  exact hself.mpr (by decide)

/-! ### Width and signedness -/

theorem wrap_eq_of_shape (hk : k.isIntegral = true) (hl : l.isIntegral = true)
    (hsize : k.size = l.size) (hsigned : k.isSigned = l.isSigned) : k.wrap v = l.wrap v := by
  have hmodulus : k.modulus = l.modulus := by rw [modulus, modulus, hsize]
  rw [wrap, wrap, if_neg (ne_boolean hk), if_neg (ne_boolean hl), hk, hl, hsize, hsigned, hmodulus]

theorem contains_of_shape (hsize : k.size = l.size) (hsigned : k.isSigned = l.isSigned) :
    k.Contains l := by
  have hmodulus : k.modulus = l.modulus := by rw [modulus, modulus, hsize]
  rw [Contains, least, least, greatest, greatest, hmodulus, hsigned]
  exact ⟨Int.le_refl _, Int.le_refl _⟩

theorem Holds.of_shape (hk : k.isIntegral = true) (hl : l.isIntegral = true)
    (hsize : k.size = l.size) (hsigned : k.isSigned = l.isSigned) (hholds : k.Holds v) :
    l.Holds v := by
  rw [← wrap_eq_self_iff hl, ← wrap_eq_of_shape hk hl hsize hsigned, wrap_eq_self_iff hk]
  exact hholds

end ScriptLowering.Primitive
