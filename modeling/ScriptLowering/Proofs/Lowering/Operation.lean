import ScriptLowering.Proofs.Lowering.Storage

/-!
# Operations yield values

The rules of constants, arithmetic, comparisons, conversions, casts, lifted operations and jumps
yield values by every criterion that is closed. Constants that a rule makes are canonical: those of
the instructions fit their kinds, and those that are folded or read as unsigned are wrapped.
-/

namespace ScriptLowering

open Script

/-! ### Canonical constants -/

/-- A 32-bit constant fits a slot of 32 bits. -/
theorem Primitive.wrap_ofInt_int32 (v : Int32) :
    Primitive.i4.wrap (Int64.ofInt v.toInt) = Int64.ofInt v.toInt := by
  have hlow := v.le_toInt
  have hhigh := v.toInt_lt
  have hvalue : (Int64.ofInt v.toInt).toInt = v.toInt :=
    Int64.toInt_ofInt_of_le (by omega) (by omega)
  rw [wrap_eq_self_iff rfl, Holds, number_of_size_lt (by decide), hvalue]
  show -(2 ^ 31 : Int) ≤ v.toInt ∧ v.toInt ≤ 2 ^ 31 - 1
  omega

/-- No type is known to be wider than a word. -/
theorem Ty.size_le (t : Ty) : t.size ≤ 8 := by
  unfold Ty.size
  split
  · decide
  · cases t.numericKind? with
    | none => exact Nat.zero_le 8
    | some kind => cases kind <;> decide

theorem Ty.wrap_size (t : Ty) :
    Primitive.i4.wrap (Int64.ofNat t.size) = Int64.ofNat t.size := by
  have hsmall : ∀ n ≤ 8, Primitive.i4.wrap (Int64.ofNat n) = Int64.ofNat n := by decide
  exact hsmall _ t.size_le

namespace Lowering

variable {e : Cil.Expr} {l : Literal}

theorem isCanonical_constant? {c : Core} (h : constant? c e = some l) : l.isCanonical = true := by
  unfold constant? at h
  split at h
  case h_1 value _ _ =>
    cases h
    have hplain : (Literal.ofKind c .i4 (Int64.ofInt value.toInt)).isCanonical = true :=
      Literal.isCanonical_ofKind (Primitive.wrap_ofInt_int32 value)
    cases hretyped : e.inferred?.bind (Literal.ofKind c .i4 (Int64.ofInt value.toInt)).retype? with
    | none => exact hplain
    | some l' =>
      obtain ⟨t, -, ht⟩ := Option.bind_eq_some_iff.mp hretyped
      exact Literal.isCanonical_of_retype? ht
  case h_2 =>
    cases h
    exact Literal.isCanonical_ofKind (Primitive.wrap_of_isInt64 rfl)
  all_goals
    cases h
    try rfl

variable {kind : Primitive} {checked : Bool} {leftType rightType type : Ty}

section

variable {env : Env} {V : Lexicon env} {inferred? : Option Ty}

theorem types_nullType (h : ∀ t, inferred? = some t → V.types t) :
    V.types (nullType env.core inferred?) := by
  unfold nullType
  split
  · split
    · exact h _ rfl
    · exact V.object
  · exact V.object

theorem types_constant? (he : V.Covers e.mentions) (h : constant? env.core e = some l) :
    ∀ t ∈ l.types, V.types t := by
  unfold constant? at h
  split at h
  · -- An integer, as a constant of the inferred type where there is one.
    next value _ _ =>
    cases h
    cases hretype : e.inferred?.bind
        (Literal.ofKind env.core .i4 (Int64.ofInt value.toInt)).retype? with
    | none => simpa [Literal.ofKind] using V.primitive .i4
    | some l' =>
      obtain ⟨inferred, hinferred, hl'⟩ := Option.bind_eq_some_iff.mp hretype
      intro t ht
      rw [Literal.types_of_retype? hl' t ht]
      exact he.inferred hinferred
  · cases h
    simpa [Literal.ofKind] using V.primitive .i8
  · cases h
    simpa using V.primitive .r4
  · cases h
    simpa using V.primitive .r8
  · cases h
    simp
  · cases h
    simp
  · cases h
    simpa using types_nullType fun t ht => he.inferred ht
  · -- Tokens name types, methods and fields that the operand mentions.
    next hoperand =>
    cases h
    simpa using he.type hoperand
  · next hoperand =>
    cases h
    simpa using he.type hoperand
  · next hoperand =>
    cases h
    exact V.signature (he.method hoperand).1
  · next hoperand =>
    cases h
    exact he.field hoperand
  · cases h

theorem canonical_foldInteger? {value : Int64}
    (h : foldInteger? env.core value kind checked = some l) :
    l.isCanonical = true ∧ ∀ t ∈ l.types, V.types t := by
  unfold foldInteger? at h
  simp only at h
  split at h
  · cases h
  · split at h
    · cases h
    · split at h
      · cases h
        exact ⟨rfl, by simp [Literal.charOfInt64]⟩
      · cases h
        exact ⟨Literal.isCanonical_ofKind_wrap env.core kind value, by simpa using V.primitive kind⟩

theorem canonical_foldConversion? {l' : Literal}
    (h : foldConversion? env.core l kind checked = some l') :
    l'.isCanonical = true ∧ ∀ t ∈ l'.types, V.types t := by
  have hfloat (value) : (Literal.float value (env.core.primitive kind)).isCanonical = true
      ∧ ∀ t ∈ (Literal.float value (env.core.primitive kind)).types, V.types t :=
    ⟨rfl, by simpa using V.primitive kind⟩
  unfold foldConversion? at h
  split at h
  · split at h
    · cases h
      exact hfloat _
    · obtain ⟨value, -, hfold⟩ := Option.bind_eq_some_iff.mp h
      exact canonical_foldInteger? hfold
  all_goals
    first
    | (obtain ⟨value, -, hfold⟩ := Option.bind_eq_some_iff.mp h
       split at hfold
       · cases hfold
         exact hfloat _
       · exact canonical_foldInteger? hfold)
    | cases h

/-! ### Types of operations -/

theorem types_promotedType {annotated : Ty} {expected? : Option Ty} (hannotated : V.types annotated)
    (hleft : V.types leftType) (hright : V.types rightType) :
    V.types (promotedType annotated expected? inferred? leftType rightType) := by
  unfold promotedType
  exact V.ite hannotated (V.ite (V.ite hleft hright) hannotated)

theorem types_unsignedResult {result : Ty} (hresult : V.types result) :
    V.types (unsignedResult env.core result) := by
  unfold unsignedResult
  split
  · next kind _ =>
    split
    · cases kind.toUnsigned? with
      | none => exact hresult
      | some kind' => exact V.primitive kind'
    · exact hresult
  · exact hresult

theorem types_annotated (he : V.Covers e.mentions) (ht : V.types type) :
    V.types ((e.inferred?.orElse fun _ => e.expected?).getD type) := by
  cases hinferred : e.inferred? with
  | some t => exact he.inferred hinferred
  | none =>
    cases hexpected : e.expected? with
    | some t => exact he.expected hexpected
    | none => exact ht

theorem types_liftedType (hinferred : ∀ t, inferred? = some t → V.types t) (ht : V.types type) :
    V.types (liftedType env.core inferred? type) := by
  unfold liftedType
  split
  · split
    · exact hinferred _ rfl
    · exact V.nullable ht
  · exact V.nullable ht

end

/-! ### Operators that assign nothing -/

variable {op : BinaryOp}

theorem isAssignment_of_arithmeticOperator? {code : Cil.Opcode}
    (h : arithmeticOperator? code = some op) : op.isAssignment = false := by
  unfold arithmeticOperator? at h
  split at h <;> cases h <;> rfl

theorem isAssignment_absenceTest (h : op.isAssignment = false) :
    (absenceTest op).isAssignment = false := by
  unfold absenceTest
  split <;> first | rfl | exact h

variable {left right : Node}

theorem pointerRule_move {pointer delta : Node}
    (h : pointerRule op left right leftType rightType = .move pointer delta type) :
    (pointer, delta, type) = (left, right, leftType)
      ∨ (pointer, delta, type) = (right, left, rightType) := by
  unfold pointerRule at h
  split at h
  · split at h <;> cases h
    exact .inl rfl
  · split at h <;> cases h
    exact .inr rfl
  · split at h <;> cases h
  · cases h

/-- What a pointer is moved back by. -/
theorem pointerRule_moveBack {pointer delta : Node} {deltaType : Ty}
    (h : pointerRule op left right leftType rightType = .moveBack pointer delta type deltaType) :
    left = pointer ∧ right = delta ∧ leftType = type ∧ rightType = deltaType := by
  unfold pointerRule at h
  split at h
  · split at h <;> cases h
    exact ⟨rfl, rfl, rfl, rfl⟩
  · split at h <;> cases h
  · split at h <;> cases h
  · cases h

variable {r : Retyping}

theorem comparedWithConstant?_mem {c : Core} {pair : Node × Int64}
    (h : comparedWithConstant? c r left right = some pair) : pair.1 ∈ [left, right] := by
  unfold comparedWithConstant? at h
  split at h
  · split at h <;> cases h
    simp
  · split at h <;> cases h
    simp
  · cases h

namespace Criterion.Closed

variable {g : Lowerer} {C : Criterion g} (hC : C.Closed) {α : Type} {s : State} {e : Cil.Expr}
  {n left right : Node}
include hC

/-! ### Operations -/

variable {op : BinaryOp}

/-- A binary operation that assigns nothing. -/
theorem binary (hop : op.isAssignment = false) (htype : C.types type) (hleft : C.Value s [] left)
    (hright : C.Value s [] right) : C.Value s [] (.binary op left right type) :=
  hC.pair (by simp [Form.isGeneral, hop]) rfl (by simpa using htype) hleft hright

theorem unary {op : UnaryOp} (hop : op.isMutating = false) (htype : C.types type)
    (hn : C.Value s [] n) : C.Value s [] (.unary op n type) :=
  hC.around (by simp [Form.isGeneral, hop]) rfl (by simpa using htype) hn

theorem nullOf (htype : C.types type) : C.Value s [] (.nullOf type) :=
  hC.literal rfl (by simpa using htype)

theorem asUnsigned (hn : C.Value s [] n) : C.Value s [] (asUnsigned g.core r n) := by
  unfold Lowering.asUnsigned
  split
  · next kind _ =>
    have hkind : C.types (g.core.primitive kind) := C.lexicon.primitive kind
    split
    · next value _ _ =>
      exact hC.literal (Literal.isCanonical_ofKind_wrap g.core kind value) (by simpa using hkind)
    · exact hC.around rfl rfl (by simpa using hkind) hn
  · exact hn

theorem unsigned {f : Node → Lower α} {post : State → α → Prop} (hn : C.Value s [] n)
    (hf : ∀ m, C.Value s [] m → C.Meets (f m) s post) : C.Meets (g.unsigned n >>= f) s post := by
  refine hC.reading (Lowering.asUnsigned g.core s.context.scope.retyping n) (fun _ => rfl) ?_
  exact hf _ (hC.asUnsigned hn)

theorem unsignedIf {isUnsigned : Bool} {f : Node → Lower α} {post : State → α → Prop}
    (hn : C.Value s [] n) (hf : ∀ m, C.Value s [] m → C.Meets (f m) s post) :
    C.Meets (if isUnsigned then g.unsigned n >>= f else pure n >>= f) s post := by
  cases isUnsigned with
  | false => exact hC.reading n (fun _ => rfl) (hf n hn)
  | true => exact hC.unsigned hn hf

/-! ### Constants -/

theorem constant (he : C.Applies e) : C.Gives (g.constant e) s := by
  unfold Lowerer.constant
  split
  · next l hl =>
    exact hC.pure (hC.literal (isCanonical_constant? hl) (types_constant? (hC.covers he) hl))
  · exact hC.throw rfl

theorem sizeOf (he : C.Applies e) : C.Gives (g.sizeOf e) s := by
  have hint : C.types (g.core.primitive .i4) := C.lexicon.int32
  refine hC.typeOperand he fun type htype => ?_
  split
  · exact hC.pure (hC.literal (Literal.isCanonical_ofKind type.wrap_size)
      (by simpa [Literal.ofKind] using hint))
  · refine hC.pure (hC.around rfl (Nat.zero_le _) (by simpa [Core.int32] using hint) ?_)
    exact hC.leaf rfl rfl (by simpa using htype)

theorem lost (he : C.Applies e) : C.Gives (g.unsupported e) s := by
  refine hC.bind (hC.eachValue fun a ha _ => hC.expression (hC.lowers he ha)) ?_
  exact fun _ _ _ harguments => hC.unsupported harguments.2

/-! ### Arithmetic and logic -/

theorem pointerOperation (hop : op.isAssignment = false) (hleft : C.Value s [] left)
    (hright : C.Value s [] right) (hleftType : C.types leftType) (hrightType : C.types rightType) :
    C.Gives (g.pointerOperation e op left right leftType rightType) s := by
  unfold Lowerer.pointerOperation
  split
  · next hrule =>
    rcases pointerRule_move hrule with h | h <;> cases h
    · exact hC.pure (hC.pair rfl rfl (by simpa using hleftType) hleft hright)
    · exact hC.pure (hC.pair rfl rfl (by simpa using hrightType) hright hleft)
  · next hrule =>
    -- A step back adds the negated distance.
    obtain ⟨rfl, rfl, rfl, rfl⟩ := pointerRule_moveBack hrule
    refine hC.pure (hC.pair rfl rfl (by simpa using hleftType) hleft ?_)
    exact hC.unary rfl hrightType hright
  · exact hC.pure (hC.pair rfl rfl (by simp) hleft hright)
  · split
    · refine hC.unsigned hleft fun left' hleft' => ?_
      refine hC.unsigned hright fun right' hright' => ?_
      exact hC.pure (hC.binary hop (C.lexicon.primitive .u) hleft' hright')
    · exact hC.pure (hC.binary hop (C.lexicon.ite hleftType hrightType) hleft hright)
  · exact hC.unsupported (by simp [hleft, hright])

section

variable (he : C.Applies e)
include he

theorem numberOperation (hop : op.isAssignment = false) (hleft : C.Value s [] left)
    (hright : C.Value s [] right) (hleftType : C.types leftType) (hrightType : C.types rightType) :
    C.Gives (g.numberOperation e op left right leftType rightType) s := by
  have hpromoted : C.types (promotedType ((e.inferred?.orElse fun _ => e.expected?).getD leftType)
      e.expected? e.inferred? leftType rightType) :=
    types_promotedType (types_annotated (hC.covers he) hleftType) hleftType hrightType
  refine hC.unsignedIf hleft fun left' hleft' => ?_
  refine hC.unsignedIf hright fun right' hright' => ?_
  refine hC.typeOf (hC.part hleft') fun _ _ => hC.typeOf (hC.part hright') fun _ _ => ?_
  refine .ite (fun _ => hC.pure ?_) fun _ => hC.pure ?_
  · exact hC.pair rfl rfl (by simp) hleft' hright'
  · exact hC.binary hop (C.lexicon.ite (types_unsignedResult hpromoted) hpromoted) hleft' hright'

theorem binaryOperation (hop : op.isAssignment = false) : C.Gives (g.binaryOperation e op) s := by
  refine hC.argument he fun a ha => hC.argument he fun b hb => ?_
  -- The operands are lowered with or without casts.
  have hlower (raw : Bool) {a : Cil.Expr} {s : State} (ha : C.Lowers a) :
      C.Gives ((if raw then g.raw else g.expression) a) s := by
    cases raw with
    | false => exact hC.expression ha
    | true => exact hC.raw ha
  refine hC.bind (hlower _ ha) fun s₁ left _ hleft => ?_
  refine hC.bind (hlower _ hb) fun s₂ right h₂ hright => ?_
  have hleft := hC.value_later h₂ hleft
  refine hC.typeOf (hC.part hleft) fun leftType hleftType => ?_
  refine hC.typeOf (hC.part hright) fun rightType hrightType => ?_
  split
  · exact hC.pointerOperation hop hleft hright hleftType hrightType
  · exact hC.numberOperation he hop hleft hright hleftType hrightType

theorem unaryOperation {op : UnaryOp} (hop : op.isMutating = false) :
    C.Gives (g.unaryOperation e op) s := by
  refine hC.operand he hC.expression fun s' operand _ hoperand => ?_
  refine hC.typeOf (hC.part hoperand) fun type htype => hC.pure (hC.unary hop ?_ hoperand)
  cases hinferred : e.inferred? with
  | none => exact htype
  | some t => exact (hC.covers he).inferred hinferred

theorem negation : C.Gives (g.negation e) s := by
  exact hC.operand he hC.condition fun _ _ _ hoperand => hC.pure (hC.logicalNot hoperand)

theorem connective (hop : op.isAssignment = false) : C.Gives (g.connective e op) s := by
  refine hC.operand he hC.condition fun s₁ left _ hleft => ?_
  refine hC.operand he hC.condition fun s₂ right h₂ hright => ?_
  exact hC.pure (hC.binary hop C.lexicon.boolean (hC.value_later h₂ hleft) hright)

theorem choice : C.Gives (g.choice e) s := by
  refine hC.operand he hC.condition fun s₁ condition _ hcondition => ?_
  refine hC.operand he hC.expression fun s₂ first h₂ hfirst => ?_
  refine hC.typeOf (hC.part hfirst) fun type htype => ?_
  have hresult := types_annotated (hC.covers he) htype
  refine hC.bind (hC.coerce hresult hfirst) fun s₃ whenTrue h₃ hwhenTrue => ?_
  refine hC.operand he (hC.expecting · hresult) fun s₄ whenFalse h₄ hwhenFalse => ?_
  have hcondition := hC.value_later (hC.trans h₂ (hC.trans h₃ h₄)) hcondition
  have hwhenTrue := hC.value_later h₄ hwhenTrue
  exact hC.pure (hC.general rfl rfl (by simpa using hresult)
    (by simp [hcondition, hwhenTrue, hwhenFalse]))

end

/-! ### Comparisons -/

theorem collapseBoolean? {collapsed : Node} (hleft : C.Value s [] left)
    (hright : C.Value s [] right) (h : collapseBoolean? g.core r op left right = some collapsed) :
    C.Value s [] collapsed := by
  have hcollapse (isEquality : Bool)
      (hmap : ((comparedWithConstant? g.core r left right).map fun pair =>
        if (pair.2 != 0) == isEquality then pair.1 else Node.logicalNot g.core pair.1)
        = some collapsed) : C.Value s [] collapsed := by
    obtain ⟨pair, hpair, rfl⟩ := Option.map_eq_some_iff.mp hmap
    have hboth : ∀ o ∈ [left, right], C.Value s [] o := by simp [hleft, hright]
    have hside := hboth _ (comparedWithConstant?_mem hpair)
    split
    · exact hside
    · exact hC.logicalNot hside
  unfold Lowering.collapseBoolean? at h
  simp only at h
  split at h
  · exact hcollapse true h
  · exact hcollapse false h
  · cases h

/-- A type test in place of a comparison. -/
theorem typeTest? {test : Node} (hleft : C.Value s [] left) (hright : C.Value s [] right)
    (h : typeTest? op left right = some test) : C.Value s [] test := by
  have hcast : C.Value s [] (if right.isNullLiteral then left else right) := by
    split
    · exact hleft
    · exact hright
  unfold Lowering.typeTest? at h
  simp only at h
  generalize (if right.isNullLiteral then left else right) = cast at hcast h
  obtain ⟨form, operands⟩ := cast
  have htest (t) (hform : form = .asCast t) :
      C.Value s [] ⟨.typeTest t, [firstOperand ⟨form, operands⟩]⟩ := by
    subst hform
    have hfirst := hC.part_getD rfl (hC.part hcast) fun _ ho => List.mem_of_head? ho
    exact hC.loose rfl rfl (hC.parts rfl (hC.part hcast)).1 (List.forall_mem_singleton.mpr hfirst)
  split at h
  case h_1 hform | h_2 hform =>
    cases h
    exact htest _ hform
  case h_3 => cases h

theorem compareWithNull (hop : op.isAssignment = false) (hleft : C.Value s [] left)
    (hright : C.Value s [] right) : C.Value s [] (compareWithNull g.core op left right) := by
  unfold Lowering.compareWithNull
  simp only
  split
  · next test h =>
    have htest := hC.typeTest? hleft hright h
    split
    · exact hC.logicalNot htest
    · exact htest
  · exact hC.binary (isAssignment_absenceTest hop) C.lexicon.boolean hleft hright

theorem compareValues {unsigned : Bool} (hop : op.isAssignment = false) (hleft : C.Value s [] left)
    (hright : C.Value s [] right) :
    C.Value s [] (compareValues g.core r op unsigned left right) := by
  have hoffset {n : Node} (hn : C.Value s [] n) : C.Value s [] (pointerOffset n) :=
    hC.around rfl rfl (by simp) hn
  have hcompare {left right : Node} (hleft : C.Value s [] left) (hright : C.Value s [] right) :
      C.Value s [] (.binary op left right g.core.boolean) :=
    hC.binary hop C.lexicon.boolean hleft hright
  unfold Lowering.compareValues
  simp only
  split
  · exact hcompare (hoffset hleft) (hoffset hright)
  · split
    · exact hcompare (hC.asUnsigned hleft) (hC.asUnsigned hright)
    · exact hcompare hleft hright

section

variable (he : C.Applies e)
include he

theorem comparison {unsigned : Bool} (hop : op.isAssignment = false) :
    C.Gives (g.comparison e op unsigned) s := by
  refine hC.operand he hC.uncast fun s₁ left _ hleft => ?_
  refine hC.operand he hC.uncast fun s₂ right h₂ hright => ?_
  have hleft := hC.value_later h₂ hleft
  refine hC.reading s₂.context (fun _ => rfl) (hC.pure ?_)
  unfold compared
  split
  · next hcollapsed => exact hC.collapseBoolean? hleft hright hcollapsed
  · split
    · exact hC.compareWithNull hop hleft hright
    · exact hC.compareValues hop hleft hright

/-! ### Conversions and casts -/

theorem conversion : C.Gives (g.conversion e kind checked) s := by
  have hkind : C.types (g.core.primitive kind) := C.lexicon.primitive kind
  refine hC.operand he hC.raw fun s' plain _ hplain => ?_
  refine hC.unsignedIf hplain fun value hvalue => ?_
  refine hC.typeOf (hC.part hvalue) fun type _ => ?_
  split
  · exact hC.pure hvalue
  · split
    · next constant hconstant =>
      obtain ⟨l, -, hfold⟩ := Option.bind_eq_some_iff.mp hconstant
      obtain ⟨hcanonical, htypes⟩ := canonical_foldConversion? hfold
      exact hC.pure (hC.literal hcanonical htypes)
    · exact hC.pure (hC.around rfl rfl (by simpa using hkind) hvalue)

theorem typeCast {tries : Bool} : C.Gives (g.typeCast e tries) s := by
  refine hC.typeOperand he fun type htype => ?_
  refine hC.operand he hC.raw fun s' value _ hvalue => ?_
  split
  · exact hC.pure (hC.nullOf htype)
  · refine hC.pure ?_
    split <;> exact hC.around rfl rfl (by simpa using htype) hvalue

theorem box : C.Gives (g.box e) s := by
  have hobject : C.types g.core.object := C.lexicon.object
  refine hC.typeOperand he fun type htype => ?_
  refine hC.operand he (hC.expecting · htype) fun s' value _ hvalue => ?_
  refine hC.copy hvalue fun copy hcopy => ?_
  exact hC.pure (hC.around rfl rfl (by simpa using hobject) hcopy)

theorem unbox : C.Gives (g.unbox e) s := by
  refine hC.typeOperand he fun type htype => ?_
  have hreference : C.types (referenceTo type) := C.lexicon.ite htype (C.lexicon.byRef htype)
  refine hC.operand he hC.expression fun s' value _ hvalue => ?_
  exact hC.pure (hC.around rfl rfl (by simpa using hreference) hvalue)

/-! ### Nullable values -/

theorem nullableWrap : C.Gives (g.nullableWrap e) s := by
  refine hC.operand he hC.expression fun s' value _ hvalue => ?_
  refine hC.typeOf (hC.part hvalue) fun type htype => ?_
  have hlifted : C.types (liftedType g.core e.inferred? type) :=
    types_liftedType (fun t ht => (hC.covers he).inferred ht) htype
  split
  · exact hC.pure hvalue
  · refine hC.pure ?_
    split
    · exact hC.nullOf hlifted
    · exact hC.around rfl rfl (by simpa using hlifted) hvalue

theorem nullableValue : C.Gives (g.nullableValue e) s := by
  refine hC.operand he hC.expression fun s' value _ hvalue => ?_
  refine hC.typeOf (hC.part hvalue) fun type htype => ?_
  split
  · next underlying hunderlying =>
    exact hC.pure (hC.nullableUnwrap hvalue (C.lexicon.wrapped htype hunderlying))
  · exact hC.pure hvalue

theorem liftedOperation : C.Gives (g.liftedOperation e) s := by
  refine hC.operand he hC.expression fun s' operation _ hoperation => ?_
  refine hC.typeOf (hC.part hoperation) fun type htype => ?_
  exact hC.liftIn hoperation (types_liftedType (fun t ht => (hC.covers he).inferred ht) htype)

end

/-! ### Jumps -/

theorem goto : C.Gives (g.goto e) s := by
  unfold Lowerer.goto
  split
  · exact hC.pure (hC.leaf rfl rfl (by simp))
  · exact hC.throw rfl

theorem leave : C.Gives (g.breakOut e) s := by
  refine hC.reading s.context (fun _ => rfl) ?_
  split
  · next target? htarget => exact hC.pure (hC.breakOut htarget)
  · exact hC.throw rfl

theorem advance : C.Gives (g.continueLoop e) s := by
  refine hC.reading s.context (fun _ => rfl) ?_
  split
  · next index hindex => exact hC.pure (hC.continueLoop hindex)
  · exact hC.throw rfl

theorem returnValue (he : C.Applies e) : C.Gives (g.returnValue e) s := by
  have hreturn {s : State} {n : Node} (hn : C.Value s [] n) : C.Value s [] (.returnValue n) :=
    hC.around rfl rfl (by simp) hn
  unfold Lowerer.returnValue
  split
  · exact hC.pure (hreturn (hC.leaf rfl rfl (by simp)))
  · next value rest harguments =>
    have hvalue : C.Lowers value := hC.lowers he (by rw [harguments]; exact List.mem_cons_self)
    refine hC.bind (hC.expecting hvalue hC.returns) fun s' node _ hnode => ?_
    exact hC.copy hnode fun copy hcopy => hC.pure (hreturn hcopy)

theorem throwValue (he : C.Applies e) : C.Gives (g.throwValue e) s := by
  refine hC.operand he hC.expression fun s' exception _ hexception => ?_
  exact hC.pure (hC.around rfl rfl (by simp) hexception)

end Criterion.Closed

end Lowering

end ScriptLowering
