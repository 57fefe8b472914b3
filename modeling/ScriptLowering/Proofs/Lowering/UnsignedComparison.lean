import ScriptLowering.Proofs.Canonical.CastMeaning
import ScriptLowering.Proofs.Lowering.ConstantConversion

/-!
# Unsigned comparisons

The machine extends integers to 32 bits before it compares them as unsigned, each by its own sign. A
lowered comparison reads each of them as the unsigned integer of its own width instead. Both give an
integer the same number, unless it is a negative one of a kind narrower than 32 bits
(`unsignedNumber_eq_extended`). Such a kind is safe beside a signed kind of the same width and an
unsigned one that is narrower (`Primitive.ordersAlike`), and beside no other
(`unsigned_comparison_at_own_width`, `short_operand_misordered`).
-/

namespace ScriptLowering

open Script

/-! ### The two readings of an integer -/

namespace Primitive

variable {k l : Primitive} {x y : Int64}

/-- The 32-bit pattern that an integer is extended to: by its sign, or by zeros. -/
def extended (k : Primitive) (v : Int64) : BitVec 32 :=
  if k.isSigned then (BitVec.ofInt (8 * k.size) v.toInt).signExtend 32
  else (BitVec.ofInt (8 * k.size) v.toInt).setWidth 32

/-- The signed kinds that are extended. -/
def isShort (k : Primitive) : Bool :=
  k.isSigned && k.size < 4

/-- An integer to which extension only adds zeros: it is not negative, or has all 32 bits
already. -/
def IsPlain (k : Primitive) (v : Int64) : Prop :=
  k.isShort = false ∨ 0 ≤ v.toInt

/-- The kinds beside which the negative integers of a kind stay in their place: those of the same
width and sign, and narrower unsigned ones. -/
def staysBeside (k l : Primitive) : Bool :=
  !k.isShort || (if l.isSigned then l.size == k.size else l.size < k.size)

/-- Two kinds whose integers have the same order when they are extended and when they are read at
their own widths. -/
def ordersAlike (k l : Primitive) : Bool :=
  k.staysBeside l && l.staysBeside k

/-- The integer kinds of at most 32 bits. -/
structure IsNarrow (k : Primitive) : Prop where
  integral : k.isIntegral = true
  size_le : k.size ≤ 4

theorem IsNarrow.size_lt (hk : k.IsNarrow) : k.size < 8 :=
  Nat.lt_of_le_of_lt hk.size_le (by decide)

theorem modulus_le_of_size_le (hsize : k.size ≤ l.size) : k.modulus ≤ l.modulus :=
  Nat.pow_le_pow_right (by decide) (Nat.mul_le_mul_left 8 hsize)

theorem two_mul_modulus_le_of_size_lt (hsize : k.size < l.size) : 2 * k.modulus ≤ l.modulus := by
  have hbits : 8 * k.size + 1 ≤ 8 * l.size := by omega
  calc 2 * k.modulus = 2 ^ (8 * k.size + 1) := (Nat.pow_succ' ..).symm
    _ ≤ 2 ^ (8 * l.size) := Nat.pow_le_pow_right (by decide) hbits

section

variable (hk : k.IsNarrow)
include hk

theorem IsNarrow.bounds (hx : k.Holds x) :
    if k.isSigned then -(k.modulus / 2 : Nat) ≤ x.toInt ∧ x.toInt < (k.modulus / 2 : Nat)
    else 0 ≤ x.toInt ∧ x.toInt < k.modulus :=
  (holds_iff_of_size_lt hk.size_lt).mp hx

theorem IsNarrow.isSigned_of_neg (hx : k.Holds x) (hneg : x.toInt < 0) : k.isSigned = true := by
  have hbounds := hk.bounds hx
  split at hbounds
  · assumption
  · omega

theorem IsNarrow.unsignedNumber_eq (hx : k.Holds x) :
    k.unsignedNumber x = if x.toInt < 0 then x.toInt + k.modulus else x.toInt := by
  have hbounds := hk.bounds hx
  rw [unsignedNumber]
  split at hbounds
  · next hsigned =>
    rw [if_pos hsigned]
    split
    · rw [← Int.add_emod_right]
      exact Int.emod_eq_of_lt (by omega) (by omega)
    · exact Int.emod_eq_of_lt (by omega) (by omega)
  · next hunsigned =>
    rw [if_neg hunsigned, if_neg (by omega), number_of_size_lt hk.size_lt]

theorem IsNarrow.toNat_extended (hx : k.Holds x) :
    ((k.extended x).toNat : Int) = if x.toInt < 0 then x.toInt + u4.modulus else x.toInt := by
  have hbounds := hk.bounds hx
  have hmodulus : k.modulus ≤ u4.modulus := modulus_le_of_size_le hk.size_le
  have heven := k.modulus_eq_two_mul
  have hwidth : 8 * k.size ≤ 32 := Nat.mul_le_mul_left 8 hk.size_le
  rw [extended]
  split at hbounds
  · next hsigned =>
    -- Extending the sign keeps the integer, whose pattern is then read in 32 bits.
    have hinteger : ((BitVec.ofInt (8 * k.size) x.toInt).signExtend 32).toInt = x.toInt := by
      rw [BitVec.toInt_signExtend_of_le hwidth, BitVec.toInt_ofInt]
      apply Int.bmod_eq_of_le
      · show -((k.modulus : Int) / 2) ≤ x.toInt
        omega
      · show x.toInt < ((k.modulus : Int) + 1) / 2
        omega
    have hpattern := BitVec.toInt_eq_toNat_cond ((BitVec.ofInt (8 * k.size) x.toInt).signExtend 32)
    have hfour : (u4.modulus : Int) = 2 ^ 32 := rfl
    rw [hinteger] at hpattern
    rw [if_pos hsigned]
    split at hpattern <;> split <;> omega
  · next hunsigned =>
    have hremainder : x.toInt % ((2 ^ (8 * k.size) : Nat) : Int) = x.toInt :=
      Int.emod_eq_of_lt hbounds.1 hbounds.2
    have hfour : u4.modulus = 2 ^ 32 := rfl
    have hsmall : x.toInt.toNat < 2 ^ 32 := by omega
    rw [if_neg hunsigned, if_neg (by omega), BitVec.toNat_setWidth, BitVec.toNat_ofInt, hremainder,
      Nat.mod_eq_of_lt hsmall]
    exact Int.toNat_of_nonneg hbounds.1

theorem IsNarrow.unsignedNumber_eq_extended (hx : k.Holds x) (hplain : k.IsPlain x) :
    k.unsignedNumber x = (k.extended x).toNat := by
  rw [hk.unsignedNumber_eq hx, hk.toNat_extended hx]
  split
  · next hneg =>
    have hsigned := hk.isSigned_of_neg hx hneg
    have hfour : k.size = 4 := by
      have hsize := hk.size_le
      rcases hplain with hlong | hnonneg
      · rw [isShort, hsigned, Bool.true_and, decide_eq_false_iff_not] at hlong
        omega
      · omega
    rw [modulus, modulus, hfour]
    rfl
  · rfl

/-! ### The order of the integers of two kinds -/

theorem IsNarrow.place_of_staysBeside (hl : l.IsNarrow) (hx : k.Holds x) (hy : l.Holds y)
    (hstays : k.staysBeside l = true) (hneg : x.toInt < 0) :
    k.modulus = u4.modulus
      ∨ (l.modulus = k.modulus ∧ -(l.modulus / 2 : Nat) ≤ y.toInt ∧ y.toInt < (l.modulus / 2 : Nat))
      ∨ (0 ≤ y.toInt ∧ y.toInt < (k.modulus / 2 : Nat)) := by
  have hsize := hk.size_le
  have hsigned := hk.isSigned_of_neg hx hneg
  have hbeside := hl.bounds hy
  rw [staysBeside, isShort, hsigned, Bool.true_and] at hstays
  by_cases hshort : k.size < 4
  · simp only [hshort, decide_true, Bool.not_true, Bool.false_or] at hstays
    split at hbeside
    · next hl =>
      rw [if_pos hl, beq_iff_eq] at hstays
      exact .inr (.inl ⟨by rw [modulus, modulus, hstays], hbeside⟩)
    · next hl =>
      rw [if_neg hl, decide_eq_true_eq] at hstays
      have hnarrower := two_mul_modulus_le_of_size_lt hstays
      exact .inr (.inr ⟨hbeside.1, by omega⟩)
  · have hfour : k.size = 4 := by omega
    exact .inl (by rw [modulus, modulus, hfour]; rfl)

theorem IsNarrow.lt_iff_of_ordersAlike (hl : l.IsNarrow) (hx : k.Holds x) (hy : l.Holds y)
    (halike : k.ordersAlike l = true) :
    k.unsignedNumber x < l.unsignedNumber y ↔ (k.extended x).toNat < (l.extended y).toNat := by
  rw [ordersAlike, Bool.and_eq_true] at halike
  have hleft := hk.place_of_staysBeside hl hx hy halike.1
  have hright := hl.place_of_staysBeside hk hy hx halike.2
  have hboundsX := hk.bounds hx
  have hboundsY := hl.bounds hy
  have hmodulusX : k.modulus ≤ u4.modulus := modulus_le_of_size_le hk.size_le
  have hmodulusY : l.modulus ≤ u4.modulus := modulus_le_of_size_le hl.size_le
  have hevenX := k.modulus_eq_two_mul
  have hevenY := l.modulus_eq_two_mul
  rw [← Int.ofNat_lt, hk.unsignedNumber_eq hx, hl.unsignedNumber_eq hy, hk.toNat_extended hx,
    hl.toNat_extended hy]
  split at hboundsX <;> split at hboundsY <;> split <;> split <;> omega

theorem IsNarrow.exists_of_isShort (hl : l.IsNarrow) (hshort : k.isShort = true)
    (hreach : (k.modulus / 2 : Nat) < l.greatest) :
    ∃ x y, k.Holds x ∧ l.Holds y ∧ k.unsignedNumber x < l.unsignedNumber y
      ∧ (l.extended y).toNat < (k.extended x).toNat := by
  rw [isShort, Bool.and_eq_true, decide_eq_true_eq] at hshort
  have hmodulus : 2 * k.modulus ≤ u4.modulus := two_mul_modulus_le_of_size_lt hshort.2
  have hfour : u4.modulus = 2 ^ 32 := rfl
  have heven := k.modulus_eq_two_mul
  have hpos : 0 < k.modulus := Nat.two_pow_pos _
  -- The least integer of the short kind is below `y` as it is read, and above it once extended.
  obtain ⟨x, hx⟩ : ∃ x : Int64, x.toInt = -(k.modulus / 2 : Nat) :=
    ⟨.ofInt _, Int64.toInt_ofInt_of_le (by omega) (by omega)⟩
  obtain ⟨y, hy⟩ : ∃ y : Int64, y.toInt = (k.modulus / 2 : Nat) + 1 :=
    ⟨.ofInt _, Int64.toInt_ofInt_of_le (by omega) (by omega)⟩
  have hxHolds : k.Holds x := by
    rw [holds_iff_of_size_lt hk.size_lt, if_pos hshort.1]
    omega
  have hyHolds : l.Holds y := by
    rw [Holds, InRange, number_of_size_lt hl.size_lt, hy]
    refine ⟨?_, by omega⟩
    rw [least]
    split <;> omega
  refine ⟨x, y, hxHolds, hyHolds, ?_, ?_⟩
  · rw [hk.unsignedNumber_eq hxHolds, hl.unsignedNumber_eq hyHolds, if_pos (by omega),
      if_neg (by omega)]
    omega
  · rw [← Int.ofNat_lt, hk.toNat_extended hxHolds, hl.toNat_extended hyHolds, if_neg (by omega),
      if_pos (by omega)]
    omega

end

theorem reach_of_not_staysBeside (hstays : k.staysBeside l = false) :
    k.isShort = true ∧ ((k.modulus / 2 : Nat) < l.greatest
      ∨ l.isShort = true ∧ (l.modulus / 2 : Nat) < k.greatest) := by
  rw [staysBeside, Bool.or_eq_false_iff, Bool.not_eq_false'] at hstays
  obtain ⟨hshort, hbeside⟩ := hstays
  refine ⟨hshort, ?_⟩
  rw [isShort, Bool.and_eq_true, decide_eq_true_eq] at hshort
  have hbyte : ∀ j : Primitive, 256 ≤ j.modulus := fun j => by cases j <;> decide
  have hbyteK := hbyte k
  have hbyteL := hbyte l
  cases hsigned : l.isSigned with
  | false =>
    rw [hsigned, if_neg Bool.false_ne_true, decide_eq_false_iff_not, Nat.not_lt] at hbeside
    have hmodulus := modulus_le_of_size_le hbeside
    left
    rw [greatest, hsigned, if_neg Bool.false_ne_true]
    omega
  | true =>
    rw [hsigned, if_pos rfl, beq_eq_false_iff_ne] at hbeside
    rcases Nat.lt_or_gt_of_ne hbeside with hless | hgreater
    · have hmodulus := two_mul_modulus_le_of_size_lt hless
      right
      rw [isShort, hsigned, greatest, if_pos hshort.1]
      refine ⟨by simp; omega, by omega⟩
    · have hmodulus := two_mul_modulus_le_of_size_lt hgreater
      left
      rw [greatest, hsigned, if_pos rfl]
      omega

theorem IsNarrow.exists_of_not_ordersAlike (hk : k.IsNarrow) (hl : l.IsNarrow)
    (hother : k.ordersAlike l = false) :
    ∃ x y, k.Holds x ∧ l.Holds y
      ∧ (k.unsignedNumber x < l.unsignedNumber y ∧ (l.extended y).toNat < (k.extended x).toNat
        ∨ l.unsignedNumber y < k.unsignedNumber x
          ∧ (k.extended x).toNat < (l.extended y).toNat) := by
  have hreach : (k.isShort = true ∧ (k.modulus / 2 : Nat) < l.greatest)
      ∨ (l.isShort = true ∧ (l.modulus / 2 : Nat) < k.greatest) := by
    rw [ordersAlike, Bool.and_eq_false_iff] at hother
    rcases hother with hstays | hstays
    · obtain ⟨hshort, hreach | hreach⟩ := reach_of_not_staysBeside hstays
      · exact .inl ⟨hshort, hreach⟩
      · exact .inr hreach
    · obtain ⟨hshort, hreach | hreach⟩ := reach_of_not_staysBeside hstays
      · exact .inr ⟨hshort, hreach⟩
      · exact .inl hreach
  rcases hreach with ⟨hshort, hreach⟩ | ⟨hshort, hreach⟩
  · obtain ⟨x, y, hx, hy, hnumbers, hpatterns⟩ := hk.exists_of_isShort hl hshort hreach
    exact ⟨x, y, hx, hy, .inl ⟨hnumbers, hpatterns⟩⟩
  · obtain ⟨y, x, hy, hx, hnumbers, hpatterns⟩ := hl.exists_of_isShort hk hshort hreach
    exact ⟨x, y, hx, hy, .inr ⟨hnumbers, hpatterns⟩⟩

end Primitive

/-! ### Comparisons of integers -/

/-- The relation of two integers that an operator asks for. -/
def Script.BinaryOp.relation? : BinaryOp → Option (Int → Int → Bool)
  | .less => some fun x y => x < y
  | .lessEqual => some fun x y => x ≤ y
  | .greater => some fun x y => x > y
  | .greaterEqual => some fun x y => x ≥ y
  | .equal => some fun x y => x = y
  | .notEqual => some fun x y => x ≠ y
  | _ => none

/-- The relation of two numbers that an unsigned comparison asks for. -/
def Cil.Opcode.unsignedOrder? : Cil.Opcode → Option (Int → Int → Bool)
  | .cltUn => some fun x y => x < y
  | .cleUn => some fun x y => x ≤ y
  | .cgtUn => some fun x y => x > y
  | .cgeUn => some fun x y => x ≥ y
  | _ => none

namespace Script.Node

/-- The integer that a node stands for: its word, read in the kind of its type. -/
def number? (c : Core) (r : Retyping) (env : Variable → Int64) (n : Node) : Option Int :=
  (n.computedType c r).numericKind?.bind fun k => (n.integer? env).map k.number

/-- The truth value that a comparison of integers stands for. -/
def truth? (c : Core) (r : Retyping) (env : Variable → Int64) : Node → Option Bool
  | ⟨.binary op _, [left, right]⟩ =>
    op.relation?.bind fun relation =>
      (left.number? c r env).bind fun x => (right.number? c r env).map (relation x)
  | _ => none

variable {c : Core} {r : Retyping} {env : Variable → Int64} {n : Node} {x : Int64}

/-- A node of an integer type of at most 32 bits. -/
structure IsNarrow (c : Core) (r : Retyping) (n : Node) (k : Primitive) : Prop where
  kind : (n.computedType c r).numericKind? = some k
  narrow : k.IsNarrow

theorem number?_eq {k : Primitive} (hk : (n.computedType c r).numericKind? = some k)
    (hx : n.integer? env = some x) : n.number? c r env = some (k.number x) := by
  rw [number?, hk, Option.bind_some, hx, Option.map_some]

end Script.Node

/-- Pointers have no numeric kind. -/
theorem Ty.numericKind?_of_isPointer {t : Ty} (h : t.isPointer = true) : t.numericKind? = none := by
  have hnone : t.primitive? = none ∧ t.enumUnderlying? = none := by
    fun_induction Ty.isPointer t with
    | case1 element => exact ⟨rfl, rfl⟩
    | case2 element _ _ ih => exact ih h
    | case3 element ih => exact ⟨(ih h).1, rfl⟩
    | case4 => cases h
  rw [Ty.numericKind?, hnone.1, hnone.2]
  rfl

namespace Lowering

variable {c : Core} {r : Retyping} {env : Variable → Int64} {n left right : Node}
  {k l : Primitive} {x y : Int64}

theorem isNarrowSigned_eq (hn : n.IsNarrow c r k) :
    isNarrowSigned (n.computedType c r) = k.isSigned := by
  have hsize : (n.computedType c r).size ≤ 4 := by
    rw [Ty.size]
    split
    · decide
    · rw [hn.kind]
      exact hn.narrow.size_le
  simp [isNarrowSigned, Ty.isIntegral, Ty.isSigned, hn.kind, hn.narrow.integral, hsize]

theorem number?_asUnsigned (hn : n.IsNarrow c r k) (hx : n.integer? env = some x) :
    (asUnsigned c r n).number? c r env = some (k.unsignedNumber x) := by
  unfold asUnsigned unsignedReading?
  rw [hn.kind]
  dsimp only
  rw [hn.narrow.integral, Bool.true_and]
  cases hsigned : k.isSigned with
  | false =>
    rw [if_neg Bool.false_ne_true, Primitive.unsignedNumber, hsigned, if_neg Bool.false_ne_true]
    exact Node.number?_eq hn.kind hx
  | true =>
    obtain ⟨unsigned, hunsigned⟩ : ∃ unsigned, k.toUnsigned? = some unsigned := by
      have hk := hn.narrow.integral
      cases k <;> first | exact ⟨_, rfl⟩ | cases hk
    rw [if_pos rfl, hunsigned, ← Primitive.number_wrap_toUnsigned? hsigned hunsigned]
    dsimp only
    split
    · next value type hform =>
      obtain rfl : value = x := by
        obtain ⟨form, operands⟩ := n
        obtain rfl : form = .literal (.integer value type) := hform
        cases operands with
        | nil => exact Option.some.inj hx
        | cons => cases hx
      rfl
    · rw [Node.number?_eq (k := unsigned) rfl (x := unsigned.wrap x)]
      rw [Node.conversion, Node.integer?, hx]
      rfl

theorem truth?_compareValues {op : BinaryOp} {relation : Int → Int → Bool}
    (hop : op.relation? = some relation) (hrelational : isRelational op = true)
    (hleft : left.IsNarrow c r k) (hright : right.IsNarrow c r l)
    (hx : left.integer? env = some x) (hy : right.integer? env = some y) :
    (compareValues c r op true left right).truth? c r env
      = some (relation (k.unsignedNumber x) (l.unsignedNumber y)) := by
  have hpointer : (left.computedType c r).isPointer = false := by
    rw [Bool.eq_false_iff]
    intro hpointer
    have hkind := hleft.kind
    rw [Ty.numericKind?_of_isPointer hpointer] at hkind
    cases hkind
  unfold compareValues
  dsimp only
  rw [hpointer, Bool.false_and, if_neg Bool.false_ne_true, Bool.true_and, hrelational,
    Bool.true_and, isNarrowSigned_eq hleft, isNarrowSigned_eq hright]
  split
  · rw [Node.binary, Node.truth?, hop, number?_asUnsigned hleft hx, number?_asUnsigned hright hy]
    rfl
  · next hunsigned =>
    rw [Bool.or_eq_true, not_or] at hunsigned
    rw [Node.binary, Node.truth?, hop, Node.number?_eq hleft.kind hx,
      Node.number?_eq hright.kind hy, Primitive.unsignedNumber, if_neg hunsigned.1,
      Primitive.unsignedNumber, if_neg hunsigned.2]
    rfl

theorem compared_eq_compareValues {op : BinaryOp} (hrelational : isRelational op = true)
    (hx : left.integer? env = some x) (hy : right.integer? env = some y) (unsigned : Bool) :
    compared c r op unsigned left right = compareValues c r op unsigned left right := by
  have hnone : collapseBoolean? c r op left right = none := by
    cases op <;> first | rfl | cases hrelational
  rw [compared, hnone, Canonical.isNullLiteral_of_integer? hx,
    Canonical.isNullLiteral_of_integer? hy]
  rfl

/-! ### The instruction -/

variable {code : Cil.Opcode} {order : Int → Int → Bool}

section

variable (hcode : code.unsignedOrder? = some order)
include hcode

theorem ruleOf_of_unsignedOrder? :
    ∃ op, ruleOf code = .comparison op true ∧ op.relation? = some order
      ∧ isRelational op = true := by
  unfold Cil.Opcode.unsignedOrder? at hcode
  split at hcode
  · exact ⟨.less, rfl, hcode, rfl⟩
  · exact ⟨.lessEqual, rfl, hcode, rfl⟩
  · exact ⟨.greater, rfl, hcode, rfl⟩
  · exact ⟨.greaterEqual, rfl, hcode, rfl⟩
  · cases hcode

theorem unsignedOrder?_congr {i j i' j' : Int} (hlt : i < j ↔ i' < j') (hgt : j < i ↔ j' < i') :
    order i j = order i' j' := by
  unfold Cil.Opcode.unsignedOrder? at hcode
  split at hcode <;> cases hcode <;> rw [decide_eq_decide] <;> omega

theorem unsignedOrder?_ne {i j i' j' : Int} (hreversed : i < j ∧ j' < i' ∨ j < i ∧ i' < j') :
    order i j ≠ order i' j' := by
  unfold Cil.Opcode.unsignedOrder? at hcode
  split at hcode <;> cases hcode <;> rw [ne_eq, decide_eq_decide] <;> omega

end

theorem Lowerer.run_comparison {g : Lowerer} {e a b : Cil.Expr} {s s₁ s₂ : State}
    (ha : e.arguments[0]? = some a) (hb : e.arguments[1]? = some b)
    (hleft : (g.uncast a).run s = (.ok left, s₁))
    (hright : (g.uncast b).run s₁ = (.ok right, s₂))
    (op : BinaryOp) (unsigned : Bool) :
    (g.comparison e op unsigned).run s
      = (.ok (compared g.core s₂.context.scope.retyping op unsigned left right), s₂) := by
  unfold Lowerer.comparison
  rw [run_bind_of_run (run_argument_of_getElem? ha s), run_bind_of_run hleft,
    run_bind_of_run (run_argument_of_getElem? hb s₁), run_bind_of_run hright]
  rfl

theorem order_eq_of_plain_or_ordersAlike (hcode : code.unsignedOrder? = some order)
    (hk : k.IsNarrow) (hl : l.IsNarrow) (hx : k.Holds x) (hy : l.Holds y)
    (hsame : k.IsPlain x ∧ l.IsPlain y ∨ k.ordersAlike l = true) :
    order (k.unsignedNumber x) (l.unsignedNumber y)
      = order (k.extended x).toNat (l.extended y).toNat := by
  rcases hsame with ⟨hplainX, hplainY⟩ | halike
  · rw [hk.unsignedNumber_eq_extended hx hplainX, hl.unsignedNumber_eq_extended hy hplainY]
  · have hswapped : l.ordersAlike k = true := by
      rw [Primitive.ordersAlike, Bool.and_comm]
      exact halike
    have hlt := hk.lt_iff_of_ordersAlike hl hx hy halike
    have hgt := hl.lt_iff_of_ordersAlike hk hy hx hswapped
    exact unsignedOrder?_congr hcode (by rw [hlt, Int.ofNat_lt]) (by rw [hgt, Int.ofNat_lt])

/-- An unsigned comparison of integers of at most 32 bits compares each as the unsigned integer of
its own width. That is the comparison of their 32-bit patterns if both are plain or if their kinds
order alike; and for two locals it is this comparison, whatever they hold, only if their kinds order
alike. -/
theorem unsigned_comparison_at_own_width (g : Lowerer) (e : Cil.Expr) {order : Int → Int → Bool}
    (hcode : e.code.unsignedOrder? = some order) {a b : Cil.Expr}
    (ha : e.arguments[0]? = some a) (hb : e.arguments[1]? = some b) {s s₁ s₂ : State}
    (hleft : ((g.uncast a).run s : Except Error Node × State) = (.ok left, s₁))
    (hright : ((g.uncast b).run s₁ : Except Error Node × State) = (.ok right, s₂))
    (hk : left.IsNarrow g.core s₂.context.scope.retyping k)
    (hl : right.IsNarrow g.core s₂.context.scope.retyping l) :
    ∃ n, ((g.apply e (ruleOf e.code)).run s : Except Error Node × State) = (.ok n, s₂)
      ∧ (∀ env x y, left.integer? env = some x → right.integer? env = some y →
        n.truth? g.core s₂.context.scope.retyping env
            = some (order (k.unsignedNumber x) (l.unsignedNumber y))
          ∧ (k.Holds x → l.Holds y → k.IsPlain x ∧ l.IsPlain y ∨ k.ordersAlike l = true →
            n.truth? g.core s₂.context.scope.retyping env
              = some (order (k.extended x).toNat (l.extended y).toNat)))
      ∧ ∀ v w, left = .ofVariable v → right = .ofVariable w → v.id ≠ w.id →
        ((∀ env, k.Holds (env v) → l.Holds (env w) →
            n.truth? g.core s₂.context.scope.retyping env
              = some (order (k.extended (env v)).toNat (l.extended (env w)).toNat))
          ↔ k.ordersAlike l = true) := by
  obtain ⟨op, hrule, hop, hrelational⟩ := ruleOf_of_unsignedOrder? hcode
  have hanswer := Lowerer.run_comparison ha hb hleft hright op true
  have htruth : ∀ env x y, left.integer? env = some x → right.integer? env = some y →
      (compared g.core s₂.context.scope.retyping op true left right).truth? g.core
          s₂.context.scope.retyping env
        = some (order (k.unsignedNumber x) (l.unsignedNumber y)) := by
    intro env x y hx hy
    rw [compared_eq_compareValues hrelational hx hy,
      truth?_compareValues hop hrelational hk hl hx hy]
  have hsame := fun x y => order_eq_of_plain_or_ordersAlike (x := x) (y := y) hcode hk.narrow
    hl.narrow
  rw [hrule]
  refine ⟨_, hanswer, fun env x y hx hy => ⟨htruth env x y hx hy, ?_⟩, ?_⟩
  · intro hholdsX hholdsY hcondition
    rw [htruth env x y hx hy, hsame x y hholdsX hholdsY hcondition]
  · rintro v w rfl rfl hids
    constructor
    · intro hall
      by_contra hother
      obtain ⟨x, y, hx, hy, hreversed⟩ :=
        hk.narrow.exists_of_not_ordersAlike hl.narrow (Bool.eq_false_iff.mpr hother)
      -- The locals hold two integers that change places.
      have hat := hall (fun u => if u.id = v.id then x else y)
      have hread := htruth (fun u => if u.id = v.id then x else y) x y
        (by rw [Node.ofVariable, Node.integer?, if_pos rfl])
        (by rw [Node.ofVariable, Node.integer?, if_neg (Ne.symm hids)])
      rw [if_pos rfl, if_neg (Ne.symm hids), hread] at hat
      refine unsignedOrder?_ne hcode ?_ (Option.some.inj (hat hx hy))
      rw [Int.ofNat_lt, Int.ofNat_lt]
      exact hreversed
    · intro halike env hholdsX hholdsY
      rw [htruth env (env v) (env w) (by rw [Node.ofVariable, Node.integer?])
        (by rw [Node.ofVariable, Node.integer?]), hsame _ _ hholdsX hholdsY (.inr halike)]

/-! ### Kinds beside each other -/

/-- The kinds of two operands that are lowered one after the other. -/
def operandKinds? (e a b : Cil.Expr) : Option (Primitive × Primitive) :=
  match (((plainLowerer e).uncast a).run ⟨.start true 512, .start⟩ : Except Error Node × State) with
  | (.ok left, s₁) =>
    match (((plainLowerer e).uncast b).run s₁ : Except Error Node × State) with
    | (.ok right, s₂) =>
      (left.computedType .standard s₂.context.scope.retyping).numericKind?.bind fun k =>
        (right.computedType .standard s₂.context.scope.retyping).numericKind?.map fun l => (k, l)
    | _ => none
  | _ => none

theorem exists_of_operandKinds? {e a b : Cil.Expr} (hk : k.IsNarrow) (hl : l.IsNarrow)
    (h : operandKinds? e a b = some (k, l)) :
    ∃ left right s₁ s₂,
      ((plainLowerer e).uncast a).run ⟨.start true 512, .start⟩
          = (.ok left, s₁)
        ∧ ((plainLowerer e).uncast b).run s₁ = (.ok right, s₂)
        ∧ left.IsNarrow .standard s₂.context.scope.retyping k
        ∧ right.IsNarrow .standard s₂.context.scope.retyping l := by
  unfold operandKinds? at h
  split at h
  · next left s₁ hleft =>
    split at h
    · next right s₂ hright =>
      obtain ⟨k', hkind, h⟩ := Option.bind_eq_some_iff.mp h
      obtain ⟨l', hkind', heq⟩ := Option.map_eq_some_iff.mp h
      obtain ⟨rfl, rfl⟩ := Prod.mk.inj heq
      exact ⟨left, right, s₁, s₂, hleft, hright, ⟨hkind, hk⟩, hkind', hl⟩
    · cases h
  · cases h

/-- A 16-bit integer and a byte are compared as their patterns are. -/
theorem short_beside_byte_compared :
    let a := loadOf "x" (Core.standard.primitive .i2)
    let b := loadOf "y" (Core.standard.primitive .u1)
    let e : Cil.Expr := .plain .cltUn .none [a, b]
    ∃ left right s₁ s₂ n,
      (((plainLowerer e).uncast a).run ⟨.start true 512, .start⟩ : Except Error Node × State)
          = (.ok left, s₁)
        ∧ (((plainLowerer e).uncast b).run s₁ : Except Error Node × State) = (.ok right, s₂)
        ∧ loweredTo e = (.ok n, s₂)
        ∧ ∀ env x y, left.integer? env = some x → right.integer? env = some y →
          Primitive.i2.Holds x → Primitive.u1.Holds y →
          n.truth? .standard s₂.context.scope.retyping env = some (decide
            (((Primitive.i2.extended x).toNat : Int) < (Primitive.u1.extended y).toNat)) := by
  intro a b e
  have hkinds : operandKinds? e a b = some (.i2, .u1) := by decide +kernel
  obtain ⟨left, right, s₁, s₂, hleft, hright, hk, hl⟩ :=
    exists_of_operandKinds? ⟨rfl, by decide⟩ ⟨rfl, by decide⟩ hkinds
  obtain ⟨n, hrun, hall, -⟩ :=
    unsigned_comparison_at_own_width (plainLowerer e) e rfl rfl rfl hleft hright hk hl
  refine ⟨left, right, s₁, s₂, n, hleft, hright, hrun, fun env x y hx hy hholdsX hholdsY => ?_⟩
  exact (hall env x y hx hy).2 hholdsX hholdsY (.inr rfl)

/-- The truth value of a comparison that is lowered in a plain run, if all variables hold a word. -/
def comparedAs? (e : Cil.Expr) (word : Int64) : Option Bool :=
  (loweredTo e).1.toOption.bind fun n =>
    n.truth? .standard (loweredTo e).2.context.scope.retyping fun _ => word

/-- The negative byte is taken for less than 256, and its pattern is greater: as a local and as a
constant. -/
theorem short_operand_misordered :
    let bound : Cil.Expr := .plain .ldcI4 (.int32 256) []
    ∀ operand ∈ [loadOf "x" (Core.standard.primitive .i1),
        .plain .convI1 .none [.plain .ldcI4 (.int32 (-1)) []]],
      let e : Cil.Expr := .plain .cltUn .none [operand, bound]
      operandKinds? e operand bound = some (.i1, .i4) ∧ comparedAs? e (-1) = some true
        ∧ Primitive.i1.Holds (-1) ∧ Primitive.i4.Holds 256
        ∧ ¬(Primitive.i1.extended (-1)).toNat < (Primitive.i4.extended 256).toNat := by
  decide +kernel

end Lowering

end ScriptLowering
