import ScriptLowering.Proofs.Canonical.CallForm
import ScriptLowering.Proofs.Numeric.Range
import ScriptLowering.Proofs.Ty.Erasure

/-!
# Arrays filled from blobs

A blob holds the elements of an array one after another, each in the bytes of its width with the
lowest byte first. Reading it gives back the integers that were written (`pieces_encoded`,
`blobElement_encoded`), so filling a new array of constant length is the array literal of what was
written (`filled_array_holds_encoded`).
-/

namespace ScriptLowering

namespace Primitive

/-- An integer that a value of a kind is written as. Truth values are written as 0 and 1. -/
def Writes (k : Primitive) (v : Int) : Prop :=
  k.InRange v ∧ (k = boolean → v ≤ 1)

instance {k : Primitive} : DecidablePred k.Writes :=
  fun _ => inferInstanceAs (Decidable (_ ∧ _))

/-- The lowest bytes of a number, the lowest first. -/
def lowBytes : Nat → Nat → List UInt8
  | 0, _ => []
  | count + 1, n => UInt8.ofNat n :: lowBytes count (n / 256)

/-- The bytes of an integer in the width of a kind, in two's complement. -/
def encoded (k : Primitive) (v : Int) : List UInt8 :=
  lowBytes k.size (v % k.modulus).toNat

theorem length_lowBytes (count n : Nat) : (lowBytes count n).length = count := by
  induction count generalizing n with
  | zero => rfl
  | succ count ih => rw [lowBytes, List.length_cons, ih]

theorem littleEndian_lowBytes (count n : Nat) :
    Canonical.littleEndian (lowBytes count n) = n % Nat.pow 256 count := by
  induction count generalizing n with
  | zero => exact (Nat.mod_one n).symm
  | succ count ih =>
    rw [lowBytes, Canonical.littleEndian, ih, UInt8.toNat_ofNat']
    calc n % 2 ^ 8 + 256 * (n / 256 % Nat.pow 256 count)
        = n % (256 * Nat.pow 256 count) := Nat.mod_mul.symm
      _ = n % Nat.pow 256 (count + 1) := by rw [Nat.mul_comm]; rfl

theorem littleEndian_encoded (k : Primitive) (v : Int) :
    (Canonical.littleEndian (k.encoded v) : Int) = v % k.modulus := by
  have hpos : 0 < k.modulus := Nat.two_pow_pos _
  have hmodulus : Nat.pow 256 k.size = k.modulus := (Nat.pow_mul 2 8 k.size).symm
  have hlow : 0 ≤ v % k.modulus := Int.emod_nonneg _ (by omega)
  have hhigh : v % k.modulus < k.modulus := Int.emod_lt_of_pos _ (by omega)
  rw [encoded, littleEndian_lowBytes, hmodulus, Nat.mod_eq_of_lt (by omega)]
  omega

variable {k : Primitive} {v : Int}

theorem emod_toInt_ofInt (k : Primitive) (v : Int) :
    (Int64.ofInt v).toInt % k.modulus = v % k.modulus := by
  have hdvd : (k.modulus : Int) ∣ Int64.size :=
    modulus_dvd_of_size_le (l := u8) (by cases k <;> decide)
  rw [Int64.toInt_ofInt, ← Int.emod_emod_of_dvd _ hdvd, Int.bmod_emod, Int.emod_emod_of_dvd _ hdvd]

theorem wrap_remainder (hk : k.isIntegral = true) (hrange : k.InRange v) :
    k.wrap (Int64.ofInt (v % k.modulus)) = Int64.ofInt v := by
  have hcongruent : k.wrap (Int64.ofInt (v % k.modulus)) = k.wrap (Int64.ofInt v) :=
    wrap_eq_of_emod_eq hk (by rw [emod_toInt_ofInt, emod_toInt_ofInt, Int.emod_emod])
  rw [hcongruent, wrap_eq_self_iff hk]
  rcases isInt64_or_size_lt hk with hint64 | hsize
  · exact holds_of_isInt64 hint64
  · have hwidth := modulus_mul_le hsize
    have hwords : u8.modulus = 2 ^ 64 := rfl
    have hbounds : -(k.modulus : Int) ≤ v ∧ v ≤ k.modulus := by
      obtain ⟨hleast, hgreatest⟩ := hrange
      unfold least at hleast
      unfold greatest at hgreatest
      split at hleast <;> omega
    rw [Holds, number_of_size_lt hsize, Int64.toInt_ofInt_of_le (by omega) (by omega)]
    exact hrange

end Primitive

namespace Canonical

open Script

/-! ### Reading what was written -/

/-- The constant of an element type with a value. Unsigned words are kept as their bits. -/
def elementConstant (c : Core) (element : Ty) (kind : Primitive) (v : Int) : Literal :=
  match kind with
  | .boolean => .boolean (v != 0)
  | .char => .char (UInt16.ofNat v.toNat)
  | _ =>
    if element.enumUnderlying?.isSome then .ofEnum element (Int64.ofInt v)
    else .ofKind c kind (Int64.ofInt v)

variable {c : Core} {element : Ty} {kind : Primitive} {v : Int}

theorem blobElement_encoded (hfloating : kind.isFloating = false) (hv : kind.Writes v) :
    blobElement c element kind (kind.encoded v) = elementConstant c element kind v := by
  have hbits := kind.littleEndian_encoded v
  obtain ⟨hrange, hboolean⟩ := hv
  have hword : (UInt64.ofNat (littleEndian (kind.encoded v))).toInt64
      = Int64.ofInt (v % kind.modulus) := by
    rw [UInt64.toInt64_ofNat', ← Int64.ofInt_eq_ofNat, hbits]
  by_cases hkind : kind = .boolean ∨ kind = .char
  · -- Truth values and characters are not negative, so the bytes give them as they are.
    have hplain : v % kind.modulus = v := by
      apply Int.emod_eq_of_lt
      · rcases hkind with rfl | rfl <;> exact hrange.1
      · rcases hkind with rfl | rfl <;> exact Int.lt_of_le_sub_one hrange.2
    rw [hplain] at hbits
    rcases hkind with rfl | rfl
    · have hzero : (littleEndian (Primitive.boolean.encoded v) != 0) = (v != 0) := by
        rw [Bool.eq_iff_iff, bne_iff_ne, bne_iff_ne]
        omega
      exact congrArg Literal.boolean hzero
    · have hunit : littleEndian (Primitive.char.encoded v) = v.toNat := by omega
      exact congrArg (fun n => Literal.char (UInt16.ofNat n)) hunit
  · have hintegral : kind.isIntegral = true := by
      cases kind <;> first | rfl | cases hfloating; done | exact absurd (.inl rfl) hkind
    have hvalue := kind.wrap_remainder hintegral hrange
    rw [← hword] at hvalue
    cases kind <;>
      first
        | cases hfloating; done
        | exact absurd (by decide) hkind
        | simp only [blobElement, elementConstant, hvalue]

theorem pieces_encoded (kind : Primitive) (values : List Int) (trailing : List UInt8) :
    pieces kind.size values.length (values.flatMap kind.encoded ++ trailing)
      = values.map kind.encoded := by
  induction values with
  | nil => rfl
  | cons v values ih =>
    have hlength : (kind.encoded v).length = kind.size := Primitive.length_lowBytes _ _
    rw [List.flatMap_cons, List.append_assoc, List.length_cons, pieces, ← hlength,
      List.take_left, List.drop_left, hlength, ih, List.map_cons]

theorem length_flatMap_encoded (kind : Primitive) (values : List Int) :
    (values.flatMap kind.encoded).length = values.length * kind.size := by
  induction values with
  | nil => exact (Nat.zero_mul _).symm
  | cons v values ih =>
    rw [List.flatMap_cons, List.length_append, ih, List.length_cons, Nat.succ_mul, Nat.add_comm]
    exact congrArg _ (Primitive.length_lowBytes _ _)

/-! ### New arrays -/

variable {h : Hierarchy} {r : Retyping} {m : Method} {dispatch : Dispatch} {explicitThis : Bool}
  {operands : List Node}

/-- The name and the class that the call is recognised by. -/
def FillsArray (m : Method) : Prop :=
  m.name = "InitializeArray"
    ∧ m.isDeclaredBy "System.Runtime.CompilerServices" "RuntimeHelpers" = true

instance : DecidablePred FillsArray :=
  fun _ => inferInstanceAs (Decidable (_ ∧ _))

theorem isDeclaredBy_eq_false {namespaceName name namespaceName' name' : String}
    (hdeclared : m.isDeclaredBy namespaceName name = true) (hne : name ≠ name') :
    m.isDeclaredBy namespaceName' name' = false := by
  unfold Method.isDeclaredBy Ty.isNamed Definition.isNamed at *
  cases hdefinition : m.declaringType.definition? with
  | none => rfl
  | some d =>
    rw [hdefinition] at hdeclared
    simp only [Option.any_some, Bool.and_eq_true, beq_iff_eq] at hdeclared
    simp [hdeclared.2, hne]

theorem replaceCall?_of_fillsArray (hm : FillsArray m) :
    replaceCall? h r ⟨.invocation m dispatch explicitThis, operands⟩
      = arrayInitializer? h.core r m operands := by
  have hobject : objectCall? h.core m operands = none := by
    unfold objectCall?
    rw [isDeclaredBy_eq_false hm.2 (by decide), if_pos (by rfl)]
  have hdelegate : delegateCall? m dispatch operands = none := by
    unfold delegateCall?
    rw [hm.1, if_pos (by rfl)]
  have hconcat : stringConcat? h r m operands.tail = none := by
    unfold stringConcat?
    rw [hm.1, if_pos (by rfl)]
  have hnullable : m.declaringType.isNullable = false :=
    isDeclaredBy_eq_false hm.2 (by decide)
  have hmember : nullableCall? h.core m operands = none := by
    unfold nullableCall?
    rw [hnullable, if_pos (by rfl)]
  simp only [replaceCall?, hobject, hdelegate, hconcat, hmember]
  cases arrayInitializer? h.core r m operands <;> rfl

theorem arrayInitializer?_newArray (hm : FillsArray m) {receiver size : Node} {length : Int64}
    {field : Field} {data : List UInt8} (hkind : element.numericKind? = some kind)
    (hnative : kind.isNative = false)
    (hsize : size.literal?.bind Literal.toInt64? = some length) (hlength : 0 ≤ length.toInt)
    (hdata : field.initialData? = some data) :
    arrayInitializer? c r m
        [receiver, ⟨.newArray element 1, [size]⟩, .literal (.fieldHandle field)]
      = if length.toInt.toNat * kind.size > data.length then none
        else some ⟨.arrayLiteral element, (pieces kind.size length.toInt.toNat data).map
          fun bytes => .literal (blobElement c element kind bytes)⟩ := by
  have hwidth : blobWidth? kind = some kind.size := by
    rw [blobWidth?, hnative]
    rfl
  have hcount (held : Nat) :
      blobCount? ⟨.newArray element 1, [size]⟩ held = some length.toInt.toNat := by
    simp [blobCount?, hsize, Int.not_lt.mpr hlength]
  have helements : blobElements? c ⟨.newArray element 1, [size]⟩ element data
      = if length.toInt.toNat * kind.size > data.length then none
        else some ((pieces kind.size length.toInt.toNat data).map
          fun bytes => .literal (blobElement c element kind bytes)) := by
    unfold blobElements?
    rw [hkind, Option.bind_eq_bind, Option.bind_some, hwidth, Option.bind_eq_bind, Option.bind_some,
      hcount]
    rfl
  have htype : ((⟨.newArray element 1, [size]⟩ : Node).computedType c r).elementType?
      = some element := rfl
  have hlocation : (⟨.newArray element 1, [size]⟩ : Node).isLocation = false := rfl
  unfold arrayInitializer?
  rw [hm.1, hm.2, if_neg (by decide)]
  simp only [Node.literal, hdata, Option.bind_eq_bind, Option.bind_some, htype, helements,
    hlocation]
  split <;> rfl

/-- A new array of constant length that is filled from a blob is the literal of the values that were
written to the blob, whatever follows them. A blob that is too short for the length fills nothing. -/
theorem filled_array_holds_encoded (hm : FillsArray m) (receiver size : Node) (field : Field)
    (length : Int64) (hkind : element.numericKind? = some kind)
    (hfloating : kind.isFloating = false) (hnative : kind.isNative = false)
    (hsize : size.literal?.bind Literal.toInt64? = some length) (hlength : 0 ≤ length.toInt) :
    (∀ (values : List Int) (trailing : List UInt8), (∀ v ∈ values, kind.Writes v) →
      length.toInt = values.length →
      field.initialData? = some (values.flatMap kind.encoded ++ trailing) →
      replaceCall? h r ⟨.invocation m dispatch explicitThis,
          [receiver, ⟨.newArray element 1, [size]⟩, .literal (.fieldHandle field)]⟩
        = some ⟨.arrayLiteral element,
            values.map fun v => .literal (elementConstant h.core element kind v)⟩)
    ∧ ∀ data : List UInt8, field.initialData? = some data →
        data.length < length.toInt * kind.size →
        replaceCall? h r ⟨.invocation m dispatch explicitThis,
          [receiver, ⟨.newArray element 1, [size]⟩, .literal (.fieldHandle field)]⟩ = none := by
  rw [replaceCall?_of_fillsArray hm]
  constructor
  · intro values trailing hvalues hcount hdata
    have hcount' : length.toInt.toNat = values.length := by omega
    have henough : ¬ values.length * kind.size
        > (values.flatMap kind.encoded ++ trailing).length := by
      rw [List.length_append, length_flatMap_encoded]
      omega
    rw [arrayInitializer?_newArray hm hkind hnative hsize hlength hdata, hcount', if_neg henough,
      pieces_encoded, List.map_map]
    refine congrArg (fun elements => some (Node.mk (.arrayLiteral element) elements)) ?_
    exact List.map_congr_left fun v hv =>
      congrArg Node.literal (blobElement_encoded hfloating (hvalues v hv))
  · intro data hdata hshort
    have hcount : (length.toInt.toNat : Int) = length.toInt := Int.toNat_of_nonneg hlength
    rw [← hcount, ← Int.natCast_mul, Int.ofNat_lt] at hshort
    rw [arrayInitializer?_newArray hm hkind hnative hsize hlength hdata, if_pos hshort]

/-- The method that fills arrays. -/
def fillMethod : Method :=
  ⟨"InitializeArray",
    .named (.plain 40 "System.Runtime.CompilerServices" "RuntimeHelpers" (.ofFile "mscorlib.dll")
      .classType),
    Core.standard.void, [], [], { MethodFlags.empty with isStatic := true }⟩

/-- A blob of the two short integers -2 and 300, and a byte more. -/
def shorts : Field :=
  ⟨"blob", Core.standard.object, Core.standard.object, true, some [254, 255, 44, 1, 7]⟩

/-- The call that fills an array of short integers from the blob. -/
def fillShorts (array : Node) : Node :=
  ⟨.invocation fillMethod .static false, [.empty, array, .literal (.fieldHandle shorts)]⟩

/-- The blob fills two elements, and does not fill three. -/
theorem fillShorts_two_of_three :
    let short := Core.standard.primitive .i2
    let length (n : Int64) : Node := .literal (.ofKind .standard .i4 n)
    replaceCall? (.ofCore .standard) .empty (fillShorts ⟨.newArray short 1, [length 2]⟩)
        = some ⟨.arrayLiteral short,
            [.literal (.ofKind .standard .i2 (-2)), .literal (.ofKind .standard .i2 300)]⟩
      ∧ replaceCall? (.ofCore .standard) .empty (fillShorts ⟨.newArray short 1, [length 3]⟩)
        = none := by
  intro short length
  have hm : FillsArray fillMethod := by decide
  have hkind : short.numericKind? = some .i2 := rfl
  constructor
  · exact (filled_array_holds_encoded hm .empty (length 2) shorts 2 hkind rfl rfl rfl
      (by decide)).1 [-2, 300] [7] (by decide) rfl rfl
  · exact (filled_array_holds_encoded hm .empty (length 3) shorts 3 hkind rfl rfl rfl
      (by decide)).2 _ rfl (by decide)

/-! ### Arrays in locations -/

theorem agrees_vector_iff (related : Ty → Ty → Bool) {t : Ty} (ht : t.elementType? = some element) :
    Ty.agrees related (.array element 1) false t = true ↔ t.arrayRank? = some 1 := by
  have hrank : t.strip.arrayRank? = t.arrayRank? := Ty.ask_strip (fun _ _ _ => rfl) (fun _ => rfl) t
  have helement : t.strip.elementType? = t.elementType? :=
    Ty.ask_strip (fun _ _ _ => rfl) (fun _ => rfl) t
  have hbare := Ty.isBare_strip t
  rw [← Ty.agrees_strip, ← hrank]
  rw [← helement] at ht
  generalize t.strip = bare at ht hbare ⊢
  cases bare with
  | array _ rank =>
    cases ht
    simp only [Ty.agrees, Ty.strip, Ty.agrees_self, Ty.arrayRank?, Bool.false_eq_true, if_false,
      Bool.and_true, beq_iff_eq, Option.some.injEq]
    exact eq_comm
  | byRef _ | pointer _ => simp [Ty.agrees, Ty.strip, Ty.arrayRank?]
  | modified _ _ _ | pinned _ => cases hbare
  | _ => cases ht

/-- Where filling the array in a location assigns an array literal, the literal has the type of the
location if and only if that is a vector: the elements may also be those of an array of a higher
rank, of a reference or of a pointer. -/
theorem stored_literal_fits_iff_vector (hm : FillsArray m)
    {receiver location handle target : Node} {type : Ty} {elements : List Node}
    (hcall : replaceCall? h r ⟨.invocation m dispatch explicitThis, [receiver, location, handle]⟩
      = some ⟨.binary .assign type, [target, ⟨.arrayLiteral element, elements⟩]⟩) :
    target = location ∧ location.isLocation = true
      ∧ (h.equal ((⟨.arrayLiteral element, elements⟩ : Node).computedType h.core r)
            (location.computedType h.core r) false = true
          ↔ (location.computedType h.core r).arrayRank? = some 1) := by
  rw [replaceCall?_of_fillsArray hm] at hcall
  have hform := callForm_arrayInitializer? hcall
  have hother {name : String} (hname : m.name = name) (hne : "InitializeArray" ≠ name) : False :=
    hne (hm.1.symm.trans hname)
  generalize hn : (⟨.binary .assign type, [target, ⟨.arrayLiteral element, elements⟩]⟩ : Node) = n
    at hform
  cases hform with
  | storedArray _ hlocation hfilled =>
    cases hn
    obtain ⟨related, hequal⟩ := h.exists_equal_eq_agrees
    refine ⟨rfl, hlocation, ?_⟩
    rw [hequal]
    exact agrees_vector_iff related hfilled.element
  | newArray => cases hn
  | staticEquals hname | identity hname | static hname | direct hname | delegate hname
  | concat hname => exact (hother hname (by decide)).elim
  | nullable hmember =>
    cases hmember with
    | present hname | value hname | valueOrDefault hname => exact (hother hname (by decide)).elim

/-- A variable of a type. -/
def variableOf (type : Ty) : Node :=
  .ofVariable { id := 0, name := "a", kind := .localVariable, declaredType := type }

/-- The assignment that overwrites a variable with the two short integers. -/
def shortsAssigned (type : Ty) : Node :=
  ⟨.binary .assign type, [variableOf type, ⟨.arrayLiteral (Core.standard.primitive .i2),
    [.literal (.ofKind .standard .i2 (-2)), .literal (.ofKind .standard .i2 300)]⟩]⟩

/-- A vector is overwritten with a literal of its type, also through a modifier. -/
theorem literal_fits_vector :
    let h := Hierarchy.ofCore .standard
    let type := Ty.modified (.array (h.core.primitive .i2) 1) h.core.object false
    replaceCall? h .empty (fillShorts (variableOf type)) = some (shortsAssigned type)
      ∧ h.equal (Ty.arrayOf (h.core.primitive .i2) 1) type false = true := by
  intro h type
  have hcall : replaceCall? h .empty (fillShorts (variableOf type)) = some (shortsAssigned type) :=
    rfl
  exact ⟨hcall, (stored_literal_fits_iff_vector (by decide) hcall).2.2.mpr rfl⟩

/-- An array of rank two and a pointer are overwritten with a vector. -/
theorem literal_misfits_grid_and_pointer :
    let h := Hierarchy.ofCore .standard
    ∀ type ∈ [Ty.array (h.core.primitive .i2) 2, Ty.pointer (h.core.primitive .i2)],
      replaceCall? h .empty (fillShorts (variableOf type)) = some (shortsAssigned type)
        ∧ h.equal (Ty.arrayOf (h.core.primitive .i2) 1)
            ((variableOf type).computedType h.core .empty) false = false := by
  intro h type htype
  simp only [List.mem_cons, List.not_mem_nil, or_false] at htype
  rcases htype with rfl | rfl
  · exact ⟨rfl, by decide +kernel⟩
  · exact ⟨rfl, by decide +kernel⟩

end Canonical

end ScriptLowering
