import ScriptLowering.Proofs.Packing.Storage

/-!
# Operations in two runs

The rules on constants, operations, comparisons, conversions, casts, nullable values and jumps keep
two runs in step. First come the helpers of the rules: on close types they answer close types, and on
twins they make twins.
-/

namespace ScriptLowering.Lowering

open Script

variable {t t' : Ty} {op : BinaryOp}

section

variable {env : Env} {L : Lexicon env} {w : Ledger} {l r l' r' : Node} {b : Bool}

/-! ### Result types -/

namespace Close

variable {t t' u u' : Ty}

theorem isSigned_eq (h : Close L t t') : t.isSigned = t'.isSigned := by
  unfold Ty.isSigned
  rw [h.numericKind?_eq]

theorem isNarrowInteger_eq (h : Close L t t') : isNarrowInteger t = isNarrowInteger t' := by
  unfold isNarrowInteger
  rw [h.isIntegral_eq, h.size_eq]

theorem promotedType {annotated annotated' : Ty} (ha : Close L annotated annotated')
    (ht : Close L t t') (hu : Close L u u') (expected? inferred? : Option Ty) :
    Close L (promotedType annotated expected? inferred? t u)
      (promotedType annotated' expected? inferred? t' u') := by
  have hwider : Close L (if t.size ≥ u.size then t else u)
      (if t'.size ≥ u'.size then t' else u') := by
    rw [← ht.size_eq, ← hu.size_eq]
    exact ht.ite hu
  unfold Lowering.promotedType
  simp only [← ht.isIntegral_eq, ← hu.isIntegral_eq, ← hwider.size_eq]
  exact ha.ite (hwider.ite ha)

theorem unsignedResult (h : Close L t t') :
    Close L (unsignedResult env.core t) (unsignedResult env.core t') := by
  unfold Lowering.unsignedResult
  rw [← h.numericKind?_eq]
  split
  · next kind _ =>
    split
    · cases kind.toUnsigned? with
      | none => exact h
      | some kind' => exact .refl (L.primitive kind')
    · exact h
  · exact h

theorem annotated {e : Cil.Expr} (he : L.Covers e.mentions) (h : Close L t t') :
    Close L ((e.inferred?.orElse fun _ => e.expected?).getD t)
      ((e.inferred?.orElse fun _ => e.expected?).getD t') := by
  cases hinferred : e.inferred? with
  | some u => exact .refl (he.inferred hinferred)
  | none =>
    cases hexpected : e.expected? with
    | some u => exact .refl (he.expected hexpected)
    | none => exact h

theorem liftedType {e : Cil.Expr} (he : L.Covers e.mentions) (h : Close L t t') :
    Close L (liftedType env.core e.inferred? t) (liftedType env.core e.inferred? t') := by
  unfold Lowering.liftedType
  split
  · next u hinferred => exact (Close.refl (he.inferred hinferred)).ite (.nullable h)
  · exact .nullable h

end Close

/-! ### Pointers -/

/-- What operations on pointers amount to in two runs. -/
inductive PointerRule.Alike (L : Lexicon env) : PointerRule → PointerRule → Prop where
  | move {pointer pointer' delta delta' : Node} {t t' : Ty} (h : Close L t t') :
    Alike L (.move pointer delta t) (.move pointer' delta' t')
  | moveBack {pointer pointer' delta delta' : Node} {t t' u u' : Ty} (h : Close L t t') :
    Alike L (.moveBack pointer delta t u) (.moveBack pointer' delta' t' u')
  | distance : Alike L .distance .distance
  | native : Alike L .native .native
  | unknown : Alike L .unknown .unknown

theorem pointerRule_alike {u u' : Ty} (ht : Close L t t') (hu : Close L u u') (op : BinaryOp) :
    (pointerRule op l l' t u).Alike L (pointerRule op r r' t' u') := by
  unfold pointerRule
  rw [← ht.isPointer_eq, ← hu.isPointer_eq]
  cases t.isPointer <;> cases u.isPointer
  · exact .native
  · cases op <;> first | exact .unknown | exact .move hu
  · cases op <;> first | exact .unknown | exact .move ht | exact .moveBack ht
  · cases op <;> first | exact .unknown | exact .distance

/-! ### Comparisons -/

namespace Twin

variable {changes changes' : Retyping}

theorem comparedWithConstant? (h : Twin L w b l r) (h' : Twin L w b l' r')
    (hchanges : Settled L w.left changes) (hchanges' : Settled L w.right changes') :
    Option.Rel (fun a a' => Twin L w b a.1 a'.1 ∧ a.2 = a'.2)
      (comparedWithConstant? env.core changes l l')
      (comparedWithConstant? env.core changes' r r') := by
  have hconstant : constantValue? l = constantValue? r := by
    unfold constantValue?
    rw [h.literal?_eq]
  have hconstant' : constantValue? l' = constantValue? r' := by
    unfold constantValue?
    rw [h'.literal?_eq]
  have hboolean := (h.typedAlike.now hchanges hchanges').isBoolean_eq
  have hboolean' := (h'.typedAlike.now hchanges hchanges').isBoolean_eq
  unfold Lowering.comparedWithConstant?
  rw [← hconstant, ← hconstant', ← hboolean, ← hboolean']
  split
  · split
    · exact .some ⟨h, rfl⟩
    · exact .none
  · split
    · exact .some ⟨h', rfl⟩
    · exact .none
  · exact .none

theorem collapseBoolean? (h : Twin L w b l r) (h' : Twin L w b l' r')
    (hchanges : Settled L w.left changes) (hchanges' : Settled L w.right changes') (op : BinaryOp) :
    Option.Rel (Twin L w b) (collapseBoolean? env.core changes op l l')
      (collapseBoolean? env.core changes' op r r') := by
  have hcompared := comparedWithConstant? h h' hchanges hchanges'
  -- The value itself or its negation, as the constant says.
  have hcollapse (isEquality : Bool) : Option.Rel (Twin L w b)
      ((Lowering.comparedWithConstant? env.core changes l l').map fun a =>
        if (a.2 != 0) == isEquality then a.1 else .logicalNot env.core a.1)
      ((Lowering.comparedWithConstant? env.core changes' r r').map fun a =>
        if (a.2 != 0) == isEquality then a.1 else .logicalNot env.core a.1) := by
    generalize Lowering.comparedWithConstant? env.core changes l l' = x at hcompared ⊢
    generalize Lowering.comparedWithConstant? env.core changes' r r' = y at hcompared ⊢
    cases hcompared with
    | none => exact .none
    | some hvalues =>
      obtain ⟨hvalue, hk⟩ := hvalues
      refine .some ?_
      dsimp only
      rw [← hk]
      split
      · exact hvalue
      · exact hvalue.logicalNot
  unfold Lowering.collapseBoolean?
  split
  · exact hcollapse true
  · exact hcollapse false
  · exact .none

/-- A tried cast is one. -/
theorem form_of_tried? {form : Form} (h : form.tried? = some t) : form = .asCast t := by
  cases form <;> first | cases h; rfl | cases h

theorem typeTest?_of_none {n m : Node} (h : (if m.isNullLiteral then n else m).form.tried? = none) :
    typeTest? op n m = none := by
  unfold typeTest?
  simp only
  split
  case h_1 hform | h_2 hform =>
    rw [hform] at h
    cases h
  case h_3 => rfl

theorem typeTest? (h : Twin L w b l r) (h' : Twin L w b l' r') (op : BinaryOp) :
    Option.Rel (PlainTwins L w) (typeTest? op l l') (typeTest? op r r') := by
  have hnull := h'.isNullLiteral_eq
  have htried : (if l'.isNullLiteral then l else l').form.tried?
      = (if r'.isNullLiteral then r else r').form.tried? := by
    rw [← hnull]
    split
    · exact congrArg Outline.tried? h.outline_eq
    · exact congrArg Outline.tried? h'.outline_eq
  cases hcase : (if l'.isNullLiteral then l else l').form.tried? with
  | none =>
    rw [hcase] at htried
    rw [typeTest?_of_none hcase, typeTest?_of_none htried.symm]
    exact .none
  | some t =>
    rw [hcase] at htried
    have hform := form_of_tried? hcase
    have hform' := form_of_tried? htried.symm
    have htest {operands operands' : List Node} :
        PlainTwins L w ⟨.typeTest t, operands⟩ ⟨.typeTest t, operands'⟩ :=
      .same L.boolean rfl
    unfold Lowering.typeTest?
    simp only [hform, hform']
    cases op <;> first | exact .some htest | exact .none

theorem compareWithNull (h : Twin L w b l r) (h' : Twin L w b l' r') (op : BinaryOp) :
    Twin L w b (compareWithNull env.core op l l') (compareWithNull env.core op r r') := by
  have htests := typeTest? h h' (absenceTest op)
  unfold Lowering.compareWithNull
  simp only
  generalize Lowering.typeTest? (absenceTest op) l l' = x at htests ⊢
  generalize Lowering.typeTest? (absenceTest op) r r' = y at htests ⊢
  cases htests with
  | none => exact Twin.same L.boolean rfl
  | some htest =>
    simp only
    split
    · exact htest.twin.logicalNot
    · exact htest.twin

theorem compareValues_eq (c : Core) (changes : Retyping) (op : BinaryOp) (unsigned : Bool)
    (n m : Node) : ∃ x y, compareValues c changes op unsigned n m = .binary op x y c.boolean := by
  unfold compareValues
  simp only
  split
  · exact ⟨_, _, rfl⟩
  · split <;> exact ⟨_, _, rfl⟩

theorem compared (h : Twin L w b l r) (h' : Twin L w b l' r')
    (hchanges : Settled L w.left changes) (hchanges' : Settled L w.right changes') (op : BinaryOp)
    (unsigned : Bool) :
    Twin L w b (compared env.core changes op unsigned l l')
      (compared env.core changes' op unsigned r r') := by
  have hcollapse := collapseBoolean? h h' hchanges hchanges' op
  unfold Lowering.compared
  generalize Lowering.collapseBoolean? env.core changes op l l' = x at hcollapse ⊢
  generalize Lowering.collapseBoolean? env.core changes' op r r' = y at hcollapse ⊢
  cases hcollapse with
  | some htwin => exact htwin
  | none =>
    simp only
    rw [← h.isNullLiteral_eq, ← h'.isNullLiteral_eq]
    split
    · exact compareWithNull h h' op
    · obtain ⟨x, y, hx⟩ := compareValues_eq env.core changes op unsigned l l'
      obtain ⟨x', y', hx'⟩ := compareValues_eq env.core changes' op unsigned r r'
      rw [hx, hx']
      exact Twin.same L.boolean rfl

end Twin

end

/-! ### Lifted operations -/

theorem fixed_lifted {c : Core} {operation : Node} {lifts : Lifts} {result : Ty} :
    Fixed c result (lifted c operation lifts result) := by
  unfold lifted
  simp only
  split
  · exact ⟨rfl, rfl, fun _ => computedType_known rfl⟩
  · next absent _ =>
    have hternary : Fixed c result
        (.ternary absent (.nullOf result) ⟨.nullableWrap result, [operation]⟩ result) :=
      ⟨rfl, rfl, fun _ => computedType_known rfl⟩
    exact hternary.afterPrelude lifts.prelude

namespace Lowerer

variable {g : Lowerer} {changes : Retyping}

theorem spilling_liftOperand (operand : Node) :
    Spilling changes (g.liftOperand operand) (fun _ => True) := by
  refine spilling_typeOf.bind fun type _ => ?_
  simp only
  split
  · exact .pure trivial
  · exact (Spilling.newTemporary type).bind fun _ _ => .pure trivial

mutual

theorem spilling_liftIn : ∀ n : Node, Spilling changes (g.liftIn n) (fun _ => True)
  | ⟨form, operands⟩ => by
    unfold Lowerer.liftIn
    split
    · exact .pure trivial
    · exact .pure trivial
    · split
      · exact .pure trivial
      · exact (spilling_liftOperand _).bind fun _ _ => .pure trivial
    · exact (spilling_liftInAll operands).bind fun _ _ => .pure trivial

theorem spilling_liftInAll :
    ∀ ns : List Node, Spilling changes (g.liftInAll ns) (fun _ => True)
  | [] => by
    unfold Lowerer.liftInAll
    exact .pure trivial
  | n :: rest => by
    unfold Lowerer.liftInAll
    refine (spilling_liftIn n).bind fun _ _ => ?_
    exact (spilling_liftInAll rest).bind fun _ _ => .pure trivial

end

end Lowerer

section

variable {env : Env} {S : Setting env} {w : Ledger} {l r l' r' : Node} {b : Bool} {e : Cil.Expr}

namespace Pair

variable {p : Pair env}

theorem unsignedIf {isUnsigned : Bool} (h : Twin S.L w b l r) {f f' : Node → Lower Node}
    {post : Ledger → Node → Node → Prop}
    (hf : ∀ n n', Twin S.L w b n n' → Couples S w (f n) (f' n') post) :
    Couples S w (if isUnsigned then p.left.unsigned l >>= f else Pure.pure l >>= f)
      (if isUnsigned then p.right.unsigned r >>= f' else Pure.pure r >>= f') post := by
  cases isUnsigned with
  | true => exact (unsigned h).bind hf
  | false => exact hf l r h

variable {b₁ b₂ : Bool}

theorem pointerOperation (hl : Twin S.L w b₁ l r) (hr : Twin S.L w b₂ l' r') {u u' : Ty}
    (ht : Close S.L t t') (hu : Close S.L u u') :
    Couples S w (p.left.pointerOperation e op l l' t u) (p.right.pointerOperation e op r r' t' u')
      (Twins S b) := by
  have hrule : (pointerRule op l l' t u).Alike S.L (pointerRule op r r' t' u') :=
    pointerRule_alike ht hu op
  unfold Lowerer.pointerOperation
  generalize pointerRule op l l' t u = rule at hrule ⊢
  generalize pointerRule op r r' t' u' = rule' at hrule ⊢
  cases hrule with
  | move h => exact .pure (Twin.known h rfl rfl)
  | moveBack h =>
    exact .pure (Twin.known h rfl rfl)
  | distance => exact .pure (Twin.same S.L.nativeInt rfl)
  | native =>
    refine .ite Iff.rfl (fun _ => ?_) fun _ => .pure ?_
    · refine (unsigned hl).bind fun _ _ _ => (unsigned hr).bind fun _ _ _ => .pure ?_
      exact Twin.same (S.L.primitive .u) rfl
    · rw [← ht.isPointerLike_eq]
      exact Twin.known (ht.ite hu) rfl rfl
  | unknown =>
    refine warn.bind fun w₁ _ _ _ _ => .pure ?_
    exact Twin.same S.L.void rfl

theorem operationOf (hl : Twin S.L w b₁ l r) (hr : Twin S.L w b₂ l' r') (h : Close S.L t t') :
    Couples S w
      (do
        if op == .mul && isNarrowInteger (← p.left.typeOf l) && isNarrowInteger (← p.left.typeOf l')
            && isNarrowInteger t then
          return ⟨.exactMultiply t.isSigned, [l, l']⟩
        else
          return .binary op l l' t)
      (do
        if op == .mul && isNarrowInteger (← p.right.typeOf r)
            && isNarrowInteger (← p.right.typeOf r') && isNarrowInteger t' then
          return ⟨.exactMultiply t'.isSigned, [r, r']⟩
        else
          return .binary op r r' t')
      (Twins S b) := by
  refine (typeOf hl.typedAlike).bind fun v v' hv => ?_
  refine (typeOf hr.typedAlike).bind fun x x' hx => ?_
  rw [← hv.isNarrowInteger_eq, ← hx.isNarrowInteger_eq, ← h.isNarrowInteger_eq, ← h.isSigned_eq]
  refine .ite Iff.rfl (fun _ => .pure ?_) fun _ => .pure ?_
  · exact Twin.same (S.L.primitive _) rfl
  · exact Twin.known h rfl rfl

theorem numberOperation (he : S.Admits e) (hl : Twin S.L w b₁ l r) (hr : Twin S.L w b₂ l' r')
    {u u' : Ty} (ht : Close S.L t t') (hu : Close S.L u u') :
    Couples S w (p.left.numberOperation e op l l' t u) (p.right.numberOperation e op r r' t' u')
      (Twins S b) := by
  have hpromoted := (ht.annotated he.covers).promotedType ht hu e.expected? e.inferred?
  unfold Lowerer.numberOperation
  dsimp only
  refine unsignedIf hl fun left left' hleft => ?_
  refine unsignedIf hr fun right right' hright => ?_
  exact operationOf hleft hright (hpromoted.unsignedResult.ite hpromoted)

namespace InStep

variable (hp : p.InStep S) (he : S.Admits e)

include hp he

/-! ### Constants -/

omit hp in
theorem constant : Couples S w (p.left.constant e) (p.right.constant e) (Twins S b) := by
  unfold Lowerer.constant
  rw [p.core_left, p.core_right]
  split
  · next x hx => exact .pure (.literal (types_constant? he.covers hx))
  · exact .throw

omit hp in
theorem sizeOf : Couples S w (p.left.sizeOf e) (p.right.sizeOf e) (Twins S b) := by
  refine .typeOperand he fun t _ => ?_
  refine .ite Iff.rfl (fun _ => .pure (.literal ?_)) fun _ => .pure ?_
  · exact List.forall_mem_singleton.mpr (S.L.primitive .i4)
  · exact Twin.same S.L.int32 rfl

theorem unsupported : Couples S w (p.left.unsupported e) (p.right.unsupported e) (Twins S b) := by
  have heach := Couples.each (S := S) (w := w) fun a ha w =>
    (hp.expression (he.argument ha) w).forget
  refine heach.bind fun w₁ _ _ _ _ => warn.bind fun w₂ _ _ _ _ => .pure ?_
  exact Twin.same S.L.void rfl

/-! ### Arithmetic and logic -/

theorem binaryOperation :
    Couples S w (p.left.binaryOperation e op) (p.right.binaryOperation e op) (Twins S b) := by
  refine .argument he fun a _ ha => ?_
  refine .argument he fun a' _ ha' => ?_
  have hlower {a₁ : Cil.Expr} (ha₁ : S.Admits a₁) (w : Ledger) : Couples S w
      ((if hasPointerHint a || hasPointerHint a' then p.left.raw else p.left.expression) a₁)
      ((if hasPointerHint a || hasPointerHint a' then p.right.raw else p.right.expression) a₁)
      (Twins S (loadsPacked env.directives a₁)) := by
    split
    · exact hp.raw ha₁ w
    · exact hp.expression ha₁ w
  refine (hlower ha w).bind fun w₁ l r _ hl => ?_
  refine (hlower ha' w₁).bind fun w₂ l' r' hle hr => ?_
  have hl := hl.later hle
  refine (typeOf hl.typedAlike).bind fun t t' ht => ?_
  refine (typeOf hr.typedAlike).bind fun u u' hu => ?_
  rw [← ht.isPointerLike_eq, ← hu.isPointerLike_eq]
  refine .ite Iff.rfl (fun _ => ?_) fun _ => ?_
  · exact pointerOperation hl hr ht hu
  · exact numberOperation he hl hr ht hu

theorem unaryOperation {op : UnaryOp} (hop : op ≠ .logicalNot) :
    Couples S w (p.left.unaryOperation e op) (p.right.unaryOperation e op) (Twins S b) := by
  refine .operand he hp.expression fun _ _ w₁ l r _ h => ?_
  refine (typeOf h.typedAlike).bind fun t t' ht => .pure ?_
  have hclose : Close S.L (e.inferred?.getD t) (e.inferred?.getD t') := by
    cases hinferred : e.inferred? with
    | some u => exact .refl (he.covers.inferred hinferred)
    | none => exact ht
  exact (PlainTwins.unary hop hclose).twin

theorem negation :
    Couples S w (p.left.negation e) (p.right.negation e)
      (Twins S (someLoadsPacked env.directives e.arguments)) := by
  refine .operand he hp.condition fun _ hmem w₁ l r _ h => .pure ?_
  exact (h.loosen (someLoadsPacked_of_mem hmem)).logicalNot

theorem connective :
    Couples S w (p.left.connective e op) (p.right.connective e op) (Twins S b) := by
  refine .operand he hp.condition fun _ _ w₁ _ _ _ _ => ?_
  refine .operand he hp.condition fun _ _ w₂ _ _ _ _ => .pure ?_
  exact Twin.same S.L.boolean rfl

theorem choice : Couples S w (p.left.choice e) (p.right.choice e) (Twins S b) := by
  refine .operand he hp.condition fun _ _ w₁ _ _ _ _ => ?_
  refine .operand he hp.expression fun _ _ w₂ first first' _ hfirst => ?_
  refine (typeOf hfirst.typedAlike).bind fun t t' ht => ?_
  have hresult := ht.annotated he.covers
  have htypes := hfirst.typedAlike
  refine (coerceEach htypes.left htypes.right hresult.left hresult.right).bind fun _ _ _ => ?_
  refine .operand he (hp.expectingEach · hresult.left hresult.right) fun _ _ _ _ _ _ _ => ?_
  exact .pure (Twin.known hresult rfl rfl)

/-! ### Comparisons and conversions -/

theorem comparison {unsigned : Bool} :
    Couples S w (p.left.comparison e op unsigned) (p.right.comparison e op unsigned)
      (Twins S (someLoadsPacked env.directives e.arguments)) := by
  refine .operand he hp.uncast fun _ hmem w₁ l r _ hl => ?_
  refine .operand he hp.uncast fun _ hmem' w₂ l' r' hle hr => ?_
  have hl := (hl.later hle).loosen (someLoadsPacked_of_mem hmem)
  have hr := hr.loosen (someLoadsPacked_of_mem hmem')
  exact Still.last (.reading fun c c' hc => hl.compared hr hc.left hc.right op unsigned)

theorem conversion {kind : Primitive} {checked : Bool} :
    Couples S w (p.left.conversion e kind checked) (p.right.conversion e kind checked)
      (Twins S (someLoadsPacked env.directives e.arguments)) := by
  refine .operand he hp.raw fun _ hmem w₁ l r _ h => ?_
  dsimp only
  refine unsignedIf (h.loosen (someLoadsPacked_of_mem hmem)) fun value value' hvalue => ?_
  refine (typeOf hvalue.typedAlike).bind fun t t' ht => ?_
  have hsame : sameRepresentation t kind = sameRepresentation t' kind := by
    unfold sameRepresentation
    rw [ht.primitive?_eq]
  refine .ite (Bool.eq_iff_iff.mp hsame) (fun _ => .pure hvalue) fun _ => ?_
  rw [← hvalue.literal?_eq, p.core_left, p.core_right]
  split
  · next constant hconstant =>
    obtain ⟨x, -, hx⟩ := Option.bind_eq_some_iff.mp hconstant
    exact .pure (.literal (canonical_foldConversion? hx).2)
  · exact .pure (.cast (S.L.primitive kind) checked hvalue.isNullUnderCasts_eq)

/-! ### Casts -/

theorem typeCast {tries : Bool} :
    Couples S w (p.left.typeCast e tries) (p.right.typeCast e tries) (Twins S b) := by
  refine .typeOperand he fun t ht => ?_
  refine .operand he hp.raw fun _ _ w₁ l r _ h => ?_
  have habsent := h.isNullUnderCasts_eq
  rw [← habsent]
  refine .ite Iff.rfl (fun _ => .pure (.literal (List.forall_mem_singleton.mpr ht))) fun _ => .pure ?_
  cases tries with
  | true => exact .casts ht habsent (.inr (.inl rfl))
  | false => exact .cast ht false habsent

theorem box : Couples S w (p.left.box e) (p.right.box e) (Twins S b) := by
  refine .typeOperand he fun t ht => ?_
  refine .operand he (hp.expecting · ht) fun _ _ w₁ l r _ h => ?_
  refine (copy h.typedAlike).bind ?_
  rintro n n' ⟨-, habsent, habsent', -⟩
  refine .pure (.casts S.L.object ?_ (.inr (.inr rfl)))
  rw [habsent, habsent', h.isNullUnderCasts_eq]

theorem unbox : Couples S w (p.left.unbox e) (p.right.unbox e) (Twins S b) := by
  refine .typeOperand he fun t ht => ?_
  refine .operand he hp.expression fun _ _ w₁ l r _ h => .pure ?_
  refine .casts ?_ h.isNullUnderCasts_eq (.inr (.inr rfl))
  exact S.L.ite ht (S.L.byRef ht)

/-! ### Nullable values -/

theorem nullableWrap :
    Couples S w (p.left.nullableWrap e) (p.right.nullableWrap e)
      (Twins S (someLoadsPacked env.directives e.arguments)) := by
  refine .operand he hp.expression fun _ hmem w₁ l r _ h => ?_
  have htype : Still S w₁ (p.left.typeOf l) (p.right.typeOf r)
      (fun t t' => Close S.L t t' ∧ (l.isNullLiteral = true → t = t')) := by
    refine .reading fun c c' hc => ⟨h.typedAlike.now hc.left hc.right, fun hnull => ?_⟩
    -- A constant has one type.
    cases hliteral : l.literal? with
    | none =>
      unfold Node.isNullLiteral at hnull
      rw [hliteral] at hnull
      cases hnull
    | some x =>
      obtain rfl := h.eq_of_literal? hliteral
      exact computedType_of_literal? hliteral _ _
  refine htype.bind ?_
  rintro t t' ⟨ht, hconstant⟩
  rw [← ht.isNullable_eq, ← h.isNullLiteral_eq]
  refine .ite Iff.rfl (fun _ => .pure (h.loosen (someLoadsPacked_of_mem hmem))) fun _ => .pure ?_
  have hlifted := ht.liftedType he.covers
  cases hnull : l.isNullLiteral with
  | true =>
    obtain rfl := hconstant hnull
    exact .literal (List.forall_mem_singleton.mpr hlifted.left)
  | false =>
    exact Twin.known hlifted rfl rfl

theorem nullableValue :
    Couples S w (p.left.nullableValue e) (p.right.nullableValue e)
      (Twins S (someLoadsPacked env.directives e.arguments)) := by
  refine .operand he hp.expression fun _ hmem w₁ l r _ h => ?_
  refine (typeOf h.typedAlike).bind fun t t' ht => ?_
  rcases ht.nullableArgument? with ⟨hnone, hnone'⟩ | ⟨u, u', hu, hu', hclose⟩
  · rw [hnone, hnone']
    exact .pure (h.loosen (someLoadsPacked_of_mem hmem))
  · rw [hu, hu']
    exact .pure (Twin.known hclose rfl rfl)

theorem liftedOperation :
    Couples S w (p.left.liftedOperation e) (p.right.liftedOperation e) (Twins S b) := by
  refine .operand he hp.expression fun _ _ w₁ l r _ h => ?_
  refine (typeOf h.typedAlike).bind fun t t' ht => ?_
  refine (Spilling.couples (fun _ => Lowerer.spilling_liftIn l)
    fun _ => Lowerer.spilling_liftIn r).bind fun w₂ _ _ _ _ => .pure ?_
  exact (PlainTwins.ofFixed fixed_lifted fixed_lifted (ht.liftedType he.covers)).twin

/-! ### Jumps -/

omit hp he in
theorem goto : Couples S w (p.left.goto e) (p.right.goto e) (Twins S b) := by
  unfold Lowerer.goto
  split
  · exact .pure (Twin.same S.L.void rfl)
  · exact .throw

omit hp he in
theorem breakOut : Couples S w (p.left.breakOut e) (p.right.breakOut e) (Twins S b) := by
  refine Still.context.bind fun c c' hc => ?_
  have htarget : c'.breakTarget? = c.breakTarget? := by
    rw [hc.rest]
    rfl
  rw [htarget]
  split
  · exact .pure (Twin.same S.L.void rfl)
  · exact .throw

omit hp he in
theorem continueLoop :
    Couples S w (p.left.continueLoop e) (p.right.continueLoop e) (Twins S b) := by
  refine Still.context.bind fun c c' hc => ?_
  have htarget : c'.continueTarget? = c.continueTarget? := by
    rw [hc.rest]
    rfl
  rw [htarget]
  split
  · exact .pure (Twin.same S.L.void rfl)
  · exact .throw

theorem returnValue : Couples S w (p.left.returnValue e) (p.right.returnValue e) (Twins S b) := by
  have hreturned {operands operands' : List Node} {w : Ledger} :
      Twin S.L w b ⟨.returnValue, operands⟩ ⟨.returnValue, operands'⟩ :=
    (Twin.same S.L.void rfl)
  unfold Lowerer.returnValue
  split
  · exact .pure hreturned
  · next value rest harguments =>
    have hvalue : S.Admits value := he.argument (by rw [harguments]; exact List.mem_cons_self)
    refine (hp.expecting hvalue hp.returns w).bind fun w₁ _ _ _ _ => ?_
    exact copyAny.bind fun _ _ _ => .pure hreturned

theorem throwValue : Couples S w (p.left.throwValue e) (p.right.throwValue e) (Twins S b) := by
  refine .operand he hp.expression fun _ _ w₁ _ _ _ _ => .pure ?_
  exact Twin.same S.L.void rfl

end InStep

end Pair

end

end ScriptLowering.Lowering
