import ScriptLowering.Proofs.Lowering.Operation
import ScriptLowering.Proofs.Packing.Ledger

/-!
# Trees of two runs

Trees of a run without packed arrays and of a run with them are twins (`Twin`) when the rules do the
same to them: they are typed alike, and what else rules look at in a tree is the same on both sides.
That is its outline (`Outline`) and whether it is a location. Operands do not matter, except where a
rule takes a tree apart: a variable under its address, and a truth value under its negation.
-/

namespace ScriptLowering

/-! ### What rules look at -/

namespace Script.Form

/-- Whether a form is a reference to a location that it names. -/
def isDirect : Form → Bool
  | takeReference | memberReference _ | elementReference _ => true
  | _ => false

/-- The type of a tried cast. -/
def tried? : Form → Option Ty
  | asCast t => some t
  | _ => none

/-- The method of a method that is a value. -/
def method? : Form → Option Method
  | methodIdentifier m => some m
  | _ => none

/-- The forms in which rules look at nothing but the type, and at whether they are locations. -/
def isSilent : Form → Bool
  | literal _ | var _ | methodIdentifier _ | newObject .. | takeReference | memberReference _
  | elementReference _ | passByReference | structCopy | cast .. | changeType _ | asCast _ => false
  | unary op _ => op != .logicalNot
  | _ => true

end Script.Form

namespace Lowering

open Script

/-- What rules look at in a tree, beside its type and whether it is a location. -/
structure Outline where
  /-- Whether it is a reference to a location that it names. -/
  isDirect : Bool
  /-- Whether it is an absent value under casts. -/
  isAbsent : Bool
  /-- The type of a tried cast. -/
  tried? : Option Ty
  /-- The method of a method that is a value. -/
  method? : Option Method
  /-- The method of a delegate that is created in place. -/
  delegate? : Option Method

/-- The outline of a tree. -/
def outlineOf (n : Node) : Outline where
  isDirect := n.form.isDirect
  isAbsent := isNullUnderCasts n
  tried? := n.form.tried?
  method? := n.form.method?
  delegate? := (Canonical.createdDelegate? n).map (·.1)

/-- Nothing to look at. -/
def Outline.blank : Outline :=
  ⟨false, false, none, none, none⟩

variable {n : Node}

/-- Silent trees have a blank outline. -/
theorem outlineOf_of_isSilent (h : n.form.isSilent = true) : outlineOf n = .blank := by
  obtain ⟨form, operands⟩ := n
  cases form <;>
    first
    | rfl
    | cases h

/-- Trees that rules do not take apart. -/
def isOrdinary (n : Node) : Bool :=
  match n.form with
  | .var _ | .literal _ | .structCopy | .passByReference => false
  | .unary op _ => op != .logicalNot
  | .takeReference => (firstOperand n).isLocation && (firstOperand n).form.isSilent
  | _ => true

theorem isOrdinary_of_isSilent (h : n.form.isSilent = true) : isOrdinary n = true := by
  obtain ⟨form, operands⟩ := n
  cases form <;>
    first
    | rfl
    | cases h
    | exact h

section

variable {env : Env} {L : Lexicon env} {w w' : Ledger} {l r : Node} {b : Bool}

/-- The methods in an outline return types of the lexicon. -/
def Outline.TypesIn (L : Lexicon env) (o : Outline) : Prop :=
  ∀ m, o.method? = some m ∨ o.delegate? = some m → L.types m.returnType

theorem Outline.typesIn_blank : Outline.blank.TypesIn L := by
  rintro m (h | h) <;> cases h

/-! ### Twins -/

/-- Variables of two runs for one variable of the method body. A receiver is no array. -/
structure TwinVariables (L : Lexicon env) (w : Ledger) (v v' : Variable) : Prop where
  kind : v.kind = v'.kind
  declaredType : v.declaredType = v'.declaredType
  types : L.types v.declaredType
  left : Known w.left v
  right : Known w.right v'
  receiver : v.isThis = true → v.declaredType.isArray = false

namespace TwinVariables

variable {v v' : Variable}

theorem later (hle : w.Le w') (h : TwinVariables L w v v') : TwinVariables L w' v v' :=
  ⟨h.kind, h.declaredType, h.types, h.left.later hle.left, h.right.later hle.right, h.receiver⟩

theorem close (h : TwinVariables L w v v') : Close L v.declaredType v'.declaredType := by
  rw [← h.declaredType]
  exact .refl h.types

theorem typedAlike (h : TwinVariables L w v v') :
    TypedAlike L w (.ofVariable v) (.ofVariable v') :=
  .ofVariable h.left h.right h.close

theorem isThis_eq (h : TwinVariables L w v v') : v.isThis = v'.isThis := by
  unfold Variable.isThis
  rw [h.kind]

end TwinVariables

/-- Trees that the rules treat the same way. Only if the flag is set, one may be a location while the
other is none. -/
inductive Twin (L : Lexicon env) (w : Ledger) : Bool → Node → Node → Prop where
  | var {b : Bool} {v v' : Variable} (h : TwinVariables L w v v') :
    Twin L w b (.ofVariable v) (.ofVariable v')
  | literal {b : Bool} {x : Literal} (h : ∀ t ∈ x.types, L.types t) :
    Twin L w b (.literal x) (.literal x)
  | address {b : Bool} {v v' : Variable} (h : TwinVariables L w v v') :
    Twin L w b ⟨.takeReference, [.ofVariable v]⟩ ⟨.takeReference, [.ofVariable v']⟩
  | negated {b : Bool} {l r : Node} (h : Twin L w b l r) :
    Twin L w b (.unary .logicalNot l env.core.boolean) (.unary .logicalNot r env.core.boolean)
  | other {b : Bool} {l r : Node} (hl : isOrdinary l = true) (hr : isOrdinary r = true)
    (houtline : outlineOf l = outlineOf r) (hmethods : (outlineOf l).TypesIn L)
    (hlocation : b = true ∨ l.isLocation = r.isLocation) (htypes : TypedAlike L w l r) :
    Twin L w b l r

variable {c : Core} {changes changes' : Retyping}

namespace Twin

/-- Silent trees that are typed alike. -/
theorem silent (hl : l.form.isSilent = true) (hr : r.form.isSilent = true)
    (hlocation : b = true ∨ l.isLocation = r.isLocation) (htypes : TypedAlike L w l r) :
    Twin L w b l r := by
  have houtline : outlineOf l = .blank := outlineOf_of_isSilent hl
  refine .other (isOrdinary_of_isSilent hl) (isOrdinary_of_isSilent hr) ?_ ?_ hlocation htypes
  · rw [houtline, outlineOf_of_isSilent hr]
  · rw [houtline]
    exact Outline.typesIn_blank

theorem later (hle : w.Le w') (h : Twin L w b l r) : Twin L w' b l r := by
  induction h with
  | var h => exact .var (h.later hle)
  | literal h => exact .literal h
  | address h => exact .address (h.later hle)
  | negated _ ih => exact .negated ih
  | other hl hr houtline hmethods hlocation htypes =>
    exact .other hl hr houtline hmethods hlocation (htypes.later hle)

/-- The flag may be set. -/
theorem loosen {b' : Bool} (h : Twin L w b l r) (hb : b = true → b' = true) :
    Twin L w b' l r := by
  induction h with
  | var h => exact .var h
  | literal h => exact .literal h
  | address h => exact .address h
  | negated _ ih => exact .negated ih
  | other hl hr houtline hmethods hlocation htypes =>
    exact .other hl hr houtline hmethods (hlocation.imp_left hb) htypes

/-! ### What twins have in common -/

theorem typedAlike (h : Twin L w b l r) : TypedAlike L w l r := by
  cases h with
  | var h => exact h.typedAlike
  | literal h => exact .known (.refl (L.literalType h)) rfl rfl
  | address h => exact h.typedAlike.takeReference
  | negated h => exact .known (.refl L.boolean) rfl rfl
  | other _ _ _ _ _ htypes => exact htypes

theorem outline_eq (h : Twin L w b l r) : outlineOf l = outlineOf r := by
  cases h with
  | other _ _ houtline _ _ _ => exact houtline
  | var | literal | address | negated => rfl

theorem outline_typesIn (h : Twin L w b l r) : (outlineOf l).TypesIn L := by
  cases h with
  | other _ _ _ hmethods _ _ => exact hmethods
  | var | address | negated | literal => rintro m (h | h) <;> cases h

theorem isLocation_eq (h : Twin L w false l r) : l.isLocation = r.isLocation := by
  cases h with
  | other _ _ _ _ hlocation _ => exact hlocation.resolve_left Bool.false_ne_true
  | var | literal | address | negated => rfl

/-- An ordinary tree is no constant. -/
theorem literal?_of_isOrdinary (h : isOrdinary n = true) : n.literal? = none := by
  obtain ⟨form, operands⟩ := n
  cases form <;> first | rfl | cases h

/-- An ordinary tree is no variable. -/
theorem var?_of_isOrdinary (h : isOrdinary n = true) : n.var? = none := by
  obtain ⟨form, operands⟩ := n
  cases form <;> first | rfl | cases h

theorem literal?_eq (h : Twin L w b l r) : l.literal? = r.literal? := by
  cases h with
  | other hl hr _ _ _ _ => rw [literal?_of_isOrdinary hl, literal?_of_isOrdinary hr]
  | var | literal | address | negated => rfl

/-- Twins that are constants are the same. -/
theorem eq_of_literal? (h : Twin L w b l r) {x : Literal} (hx : l.literal? = some x) : l = r := by
  cases h with
  | literal => rfl
  | other hl _ _ _ _ _ =>
    rw [literal?_of_isOrdinary hl] at hx
    cases hx
  | var | address | negated => cases hx

theorem isNullLiteral_eq (h : Twin L w b l r) : l.isNullLiteral = r.isNullLiteral := by
  unfold Node.isNullLiteral
  rw [h.literal?_eq]

theorem isOwnReceiver_eq (h : Twin L w b l r) : isOwnReceiver l = isOwnReceiver r := by
  unfold isOwnReceiver
  cases h with
  | var h => exact h.isThis_eq
  | other hl hr _ _ _ _ => rw [var?_of_isOrdinary hl, var?_of_isOrdinary hr]
  | literal | address | negated => rfl

/-! ### References -/

theorem isReference_eq_isByRef (h : n.form ≠ .passByReference) :
    n.isReference c changes = (n.computedType c changes).isByRef := by
  obtain ⟨form, operands⟩ := n
  unfold Node.isReference
  cases form <;>
    first
    | rfl
    | exact absurd rfl h

/-- An ordinary tree is no passed reference. -/
theorem ne_passByReference_of_isOrdinary (h : isOrdinary n = true) : n.form ≠ .passByReference := by
  intro hform
  unfold isOrdinary at h
  rw [hform] at h
  cases h

theorem ne_passByReference (h : Twin L w b l r) :
    l.form ≠ .passByReference ∧ r.form ≠ .passByReference := by
  cases h with
  | other hl hr _ _ _ _ =>
    exact ⟨ne_passByReference_of_isOrdinary hl, ne_passByReference_of_isOrdinary hr⟩
  | var | literal | address | negated => exact ⟨nofun, nofun⟩

theorem isReference_eq (h : Twin L w b l r) (hl : Settled L w.left changes)
    (hr : Settled L w.right changes') :
    l.isReference env.core changes = r.isReference env.core changes' := by
  rw [isReference_eq_isByRef h.ne_passByReference.1, isReference_eq_isByRef h.ne_passByReference.2]
  exact (h.typedAlike.now hl hr).isByRef_eq

end Twin

/-! ### Locations -/

variable {n : Node} {t : Ty}

theorem locationOf_of_not_isByRef (hn : isOrdinary n = true)
    (h : (n.computedType c changes).isByRef = false) : locationOf c changes n = n := by
  have hlocated := located_locationOf c changes n
  generalize locationOf c changes n = location at hlocated ⊢
  cases hlocated with
  | taken | member | element => cases h
  | declared => cases hn
  | result hreference => cases hreference.symm.trans h
  | referent hreference => cases hreference.symm.trans h
  | slot | itself => rfl

theorem locationOf_of_isByRef (hn : isOrdinary n = true)
    (h : (n.computedType c changes).isByRef = true) :
    (locationOf c changes n).form.isSilent = true ∧ (locationOf c changes n).isLocation = true
      ∧ ∀ changes', (locationOf c changes n).computedType c changes'
        = (n.computedType c changes').elementType?.getD (n.computedType c changes') := by
  have hlocated := located_locationOf c changes n
  generalize locationOf c changes n = location at hlocated ⊢
  cases hlocated with
  | @taken operands =>
    obtain ⟨hlocation, hsilent⟩ := Bool.and_eq_true_iff.mp hn
    refine ⟨hsilent, hlocation, fun changes' => ?_⟩
    cases operands with
    | nil => cases hlocation
    | cons first rest => simp [Node.computedType, Form.typeRule, Node.typeAt, Ty.elementType?]
  | member =>
    refine ⟨rfl, rfl, fun _ => ?_⟩
    simp [Node.fieldAccess, Node.computedType, Form.typeRule, Ty.elementType?]
  | element =>
    refine ⟨rfl, rfl, fun _ => ?_⟩
    simp [Node.elementAccess, Node.computedType, Form.typeRule, Ty.elementType?]
  | declared | slot => cases hn
  | result =>
    refine ⟨rfl, rfl, fun _ => ?_⟩
    simp [Node.computedType, Form.typeRule, Node.typeAt]
  | referent =>
    refine ⟨rfl, rfl, fun _ => ?_⟩
    simp [Node.dereference, Node.computedType, Form.typeRule, Node.typeAt]
  | itself hplain => cases hplain.symm.trans h

theorem locationOf_ofVariable {declared : List Ty} {v : Variable} (hv : Known declared v)
    (hchanges : Settled L declared changes) :
    locationOf env.core changes (.ofVariable v)
      = if v.isThis || !v.declaredType.isByRef then .ofVariable v
        else .dereference (.ofVariable v) := by
  have htype : ((Node.ofVariable v).computedType env.core changes).isByRef
      = v.declaredType.isByRef := by
    unfold Node.ofVariable
    rw [computedType_known rfl, hchanges.isByRef_typeOf hv]
  show (if v.isThis then _ else if v.isReference || _ then _ else _) = _
  rw [htype]
  unfold Variable.isReference
  cases v.isThis <;> cases v.declaredType.isByRef <;> rfl

namespace Twin

/-- The locations that references designate. -/
theorem locationOf (h : Twin L w b l r) (hl : Settled L w.left changes)
    (hr : Settled L w.right changes') :
    Twin L w b (locationOf env.core changes l) (locationOf env.core changes' r) := by
  have htypes := h.typedAlike
  have hbyRef := (htypes.now hl hr).isByRef_eq
  -- A reference that is read through.
  have hderef (h : (l.computedType env.core changes).isByRef = true) :
      Twin L w b (.dereference l) (.dereference r) := by
    refine .silent rfl rfl (.inr rfl) (htypes.referent hl h (fun _ => ?_) fun _ => ?_) <;>
      simp [Node.dereference, Node.computedType, Form.typeRule, Node.typeAt]
  cases h with
  | @var v v' h =>
    rw [locationOf_ofVariable h.left hl, locationOf_ofVariable h.right hr, ← h.isThis_eq,
      ← h.declaredType]
    split
    · exact .var h
    · next hnot =>
      refine hderef ?_
      unfold Node.ofVariable
      rw [computedType_known rfl, hl.isByRef_typeOf h.left]
      cases hdeclared : v.declaredType.isByRef
      · simp [hdeclared] at hnot
      · rfl
  | @literal x h =>
    have hsame (changes : Retyping) : Lowering.locationOf env.core changes (.literal x)
        = if (x.type env.core).isByRef then .dereference (.literal x) else .literal x := by
      show (if ((Node.literal x).computedType env.core changes).isByRef then _ else _) = _
      unfold Node.literal
      rw [computedType_known rfl]
    rw [hsame, hsame]
    split
    · next hreference =>
      refine hderef ?_
      unfold Node.literal
      rw [computedType_known rfl]
      exact hreference
    · exact .literal h
  | address h => exact .var h
  | negated h => exact .negated h
  | other hordl hordr houtline hmethods hlocation htypes =>
    cases hreference : (l.computedType env.core changes).isByRef with
    | false =>
      rw [hreference] at hbyRef
      rw [locationOf_of_not_isByRef hordl hreference, locationOf_of_not_isByRef hordr hbyRef.symm]
      exact .other hordl hordr houtline hmethods hlocation htypes
    | true =>
      rw [hreference] at hbyRef
      obtain ⟨hsl, hll, htl⟩ := locationOf_of_isByRef hordl hreference
      obtain ⟨hsr, hlr, htr⟩ := locationOf_of_isByRef hordr hbyRef.symm
      exact .silent hsl hsr (.inr (hll.trans hlr.symm)) (htypes.referent hl hreference htl htr)

theorem isDirect_locationOf (h : Twin L w b l r) (hr : Settled L w.right changes) :
    (Lowering.locationOf env.core changes r).form.isDirect = false := by
  cases h with
  | var h =>
    rw [locationOf_ofVariable h.right hr]
    split <;> rfl
  | literal =>
    show (if _ then _ else _ : Node).form.isDirect = false
    split <;> rfl
  | address | negated => rfl
  | other _ hordinary _ _ _ _ =>
    cases hreference : (r.computedType env.core changes).isByRef with
    | true =>
      have hsilent := (locationOf_of_isByRef hordinary hreference).1
      have houtline : (outlineOf (Lowering.locationOf env.core changes r)).isDirect = false := by
        rw [outlineOf_of_isSilent hsilent]
        rfl
      exact houtline
    | false =>
      rw [locationOf_of_not_isByRef hordinary hreference]
      -- A reference to a location that it names has the type of a reference.
      obtain ⟨form, operands⟩ := r
      rw [Node.computedType] at hreference
      cases form <;> first | rfl | cases hreference

/-! ### Casts -/

theorem casts {form : Form} (ht : L.types t) (habsent : isNullUnderCasts l = isNullUnderCasts r)
    (hform : (∃ checked, form = .cast t checked) ∨ form = .asCast t ∨ form = .changeType t) :
    Twin L w b ⟨form, [l]⟩ ⟨form, [r]⟩ := by
  obtain ⟨checked, rfl⟩ | rfl | rfl := hform
  all_goals
    refine .other rfl rfl ?_ ?_ (.inr rfl) (.known (.refl ht) rfl rfl)
    · show (⟨_, isNullUnderCasts l, _, _, _⟩ : Outline) = ⟨_, isNullUnderCasts r, _, _, _⟩
      rw [habsent]
      rfl
    · rintro m (h | h) <;> cases h

theorem cast (ht : L.types t) (checked : Bool) (habsent : isNullUnderCasts l = isNullUnderCasts r) :
    Twin L w b (.cast l t checked) (.cast r t checked) :=
  casts ht habsent (.inl ⟨checked, rfl⟩)

theorem isNullUnderCasts_eq (h : Twin L w b l r) : isNullUnderCasts l = isNullUnderCasts r :=
  congrArg Outline.isAbsent h.outline_eq

end Twin

/-! ### Coercion -/

/-- What coercion makes of a tree. -/
theorem coerced_cases (h : Hierarchy) (c : Context) (n : Node) (t : Ty) :
    coerced h c n t = n ∨ literalAs? n t = some (coerced h c n t)
      ∨ coerced h c n t = .cast n t false := by
  unfold coerced
  split
  · exact .inl rfl
  · simp only
    split
    · exact .inl rfl
    · split
      · next hconstant => exact .inr (.inl hconstant)
      · split
        · exact .inr (.inr rfl)
        · exact .inl rfl

theorem coerced_of_numericKind? {h : Hierarchy} {c : Context} (hliteral : n.literal? = none)
    (hkind : (n.computedType h.core c.scope.retyping).numericKind? = none) :
    coerced h c n t = n := by
  have hconstant : literalAs? n t = none := by
    unfold literalAs?
    rw [hliteral]
    rfl
  simp [coerced, hconstant, hkind]

theorem TypedIn.coerced {declared : List Ty} (hn : TypedIn L declared n) (ht : L.types t)
    (c : Context) : TypedIn L declared (coerced env.types c n t) := by
  rcases coerced_cases env.types c n t with hsame | hconstant | hcast
  · rw [hsame]
    exact hn
  · intro declared' changes _ hchanges
    refine L.computedType (fun entry hentry => (hchanges entry hentry).1) ?_
    obtain ⟨x, hx, -, htypes⟩ := exists_literal_of_literalAs? hconstant
    rw [hx]
    exact Node.typesIn_literal.mpr fun t' ht' => htypes t' ht' ▸ ht
  · rw [hcast]
    intro declared' changes _ _
    unfold Node.cast
    rw [computedType_known rfl]
    exact ht

/-- A constant has one type. -/
theorem computedType_of_literal? {x : Literal} (h : n.literal? = some x)
    (changes changes' : Retyping) : n.computedType c changes = n.computedType c changes' := by
  obtain ⟨form, operands⟩ := n
  unfold Node.literal? at h
  split at h
  · next hform =>
    subst hform
    rw [computedType_known rfl, computedType_known rfl]
  · cases h

namespace Twin

theorem literalAs? {constant : Node} (ht : L.types t) (h : literalAs? n t = some constant) :
    Twin L w b constant constant := by
  obtain ⟨x, rfl, -, htypes⟩ := exists_literal_of_literalAs? h
  exact .literal fun t' ht' => htypes t' ht' ▸ ht

/-- Twins as their consumer expects them. -/
theorem coerced (h : Twin L w b l r) {c c' : Context}
    (hcast : c.autoCastEnabled = c'.autoCastEnabled) (hl : Settled L w.left c.scope.retyping)
    (hr : Settled L w.right c'.scope.retyping) (ht : L.types t) :
    Twin L w b (Lowering.coerced env.types c l t) (Lowering.coerced env.types c' r t) := by
  have hclose := h.typedAlike.now hl hr
  have hconstants : Lowering.literalAs? l t = Lowering.literalAs? r t := by
    unfold Lowering.literalAs?
    rw [h.literal?_eq]
  -- Trees of one type are coerced the same way.
  have hsame (htype : l.computedType env.core c.scope.retyping
      = r.computedType env.core c'.scope.retyping) :
      Twin L w b (Lowering.coerced env.types c l t) (Lowering.coerced env.types c' r t) := by
    have htype' : l.computedType env.types.core c.scope.retyping
      = r.computedType env.types.core c'.scope.retyping := htype
    unfold Lowering.coerced
    simp only [hcast, htype', hconstants]
    split
    · exact h
    · split
      · exact h
      · split
        · next hconstant => exact literalAs? ht hconstant
        · split
          · exact cast ht false h.isNullUnderCasts_eq
          · exact h
  cases hliteral : l.literal? with
  | some x =>
    obtain rfl := h.eq_of_literal? hliteral
    exact hsame (computedType_of_literal? hliteral _ _)
  | none =>
    rcases hclose.eq_or_numericKind? with heq | ⟨hkind, hkind'⟩
    · exact hsame heq
    · rw [coerced_of_numericKind? hliteral hkind,
        coerced_of_numericKind? (h.literal?_eq ▸ hliteral) hkind']
      exact h

/-! ### Unsigned readings and negations -/

theorem asUnsigned_of_literal? (h : n.literal? = none) {kind : Primitive}
    (hkind : unsignedReading? (n.computedType c changes) = some kind) :
    Lowering.asUnsigned c changes n = .conversion n .reinterpret (c.primitive kind) false := by
  obtain ⟨form, operands⟩ := n
  unfold Lowering.asUnsigned
  rw [hkind]
  simp only
  split
  · cases h
  · rfl

theorem asUnsigned (h : Twin L w b l r) (hl : Settled L w.left changes)
    (hr : Settled L w.right changes') :
    Twin L w b (asUnsigned env.core changes l) (asUnsigned env.core changes' r) := by
  have hreading : unsignedReading? (l.computedType env.core changes)
      = unsignedReading? (r.computedType env.core changes') := by
    unfold unsignedReading?
    rw [(h.typedAlike.now hl hr).numericKind?_eq]
  cases hkind : unsignedReading? (l.computedType env.core changes) with
  | none =>
    rw [hkind] at hreading
    unfold Lowering.asUnsigned
    rw [hkind, ← hreading]
    exact h
  | some kind =>
    rw [hkind] at hreading
    have hconverted : Twin L w b (.conversion l .reinterpret (env.core.primitive kind) false)
        (.conversion r .reinterpret (env.core.primitive kind) false) := by
      refine .silent rfl rfl (.inr rfl) ?_
      exact .known (.refl (L.primitive kind)) rfl rfl
    -- Twins have the same literal, so either both are read again or both are converted.
    cases hliteral : l.literal? with
    | none =>
      rw [asUnsigned_of_literal? hliteral hkind,
        asUnsigned_of_literal? (h.literal?_eq ▸ hliteral) hreading.symm]
      exact hconverted
    | some x =>
      obtain rfl := h.eq_of_literal? hliteral
      unfold Lowering.asUnsigned
      rw [hkind, ← hreading]
      simp only
      split
      · exact .literal (by simpa using L.primitive kind)
      · exact hconverted

/-- What is no negation is negated by one. -/
theorem logicalNot_of_ne (h : ∀ t, n.form ≠ .unary .logicalNot t) :
    Node.logicalNot c n = .unary .logicalNot n c.boolean := by
  unfold Node.logicalNot
  split
  · next t _ _ => exact absurd rfl (h t)
  · next t => exact absurd rfl (h t)
  · rfl

theorem logicalNot (h : Twin L w b l r) :
    Twin L w b (.logicalNot env.core l) (.logicalNot env.core r) := by
  have hordinary {n : Node} (hn : isOrdinary n = true) (t : Ty) :
      n.form ≠ .unary .logicalNot t := by
    intro hform
    unfold isOrdinary at hn
    rw [hform] at hn
    cases hn
  cases h with
  | negated h => exact h
  | other hl hr houtline hmethods hlocation htypes =>
    rw [logicalNot_of_ne (hordinary hl), logicalNot_of_ne (hordinary hr)]
    exact .negated (.other hl hr houtline hmethods hlocation htypes)
  | var h => exact .negated (.var h)
  | literal h => exact .negated (.literal h)
  | address h => exact .negated (.address h)

end Twin

/-! ### Copies -/

theorem computedType_copied (n : Node) (c : Core) (changes changes' : Retyping) :
    (copied c changes n).computedType c changes' = n.computedType c changes' := by
  unfold copied
  split
  · simp [Node.structCopy, Node.computedType, Form.typeRule, Node.typeAt]
  · rfl

theorem absent_and_method?_copied (n : Node) (c : Core) (changes : Retyping) :
    isNullUnderCasts (copied c changes n) = isNullUnderCasts n
      ∧ (copied c changes n).form.method? = n.form.method? := by
  unfold copied
  split
  · next hcopies =>
    -- A location is neither a cast, nor a constant, nor a method.
    have hlocation := (Bool.and_eq_true_iff.mp hcopies).1
    obtain ⟨form, operands⟩ := n
    cases form <;> first | exact ⟨rfl, rfl⟩ | cases hlocation
  · exact ⟨rfl, rfl⟩

theorem TypedAlike.copied (h : TypedAlike L w l r) (changes changes' : Retyping) :
    TypedAlike L w (copied env.core changes l) (copied env.core changes' r) := by
  intro w' changes₁ changes₁' hle hl hr
  rw [computedType_copied, computedType_copied]
  exact h hle hl hr

/-- Twins are no copies. -/
theorem Twin.uncopied (h : Twin L w b l r) :
    Lowerer.uncopied l = l ∧ Lowerer.uncopied r = r := by
  have hordinary {n : Node} (hn : isOrdinary n = true) : Lowerer.uncopied n = n := by
    obtain ⟨form, operands⟩ := n
    cases form <;> first | rfl | cases hn
  cases h with
  | other hl hr _ _ _ _ => exact ⟨hordinary hl, hordinary hr⟩
  | var | literal | address | negated => exact ⟨rfl, rfl⟩

/-! ### Values -/

/-- Silent trees that are no locations and are typed alike. -/
structure PlainTwins (L : Lexicon env) (w : Ledger) (l r : Node) : Prop where
  left : l.form.isSilent = true ∧ l.isLocation = false
  right : r.form.isSilent = true ∧ r.isLocation = false
  types : TypedAlike L w l r

theorem PlainTwins.twin (h : PlainTwins L w l r) : Twin L w b l r :=
  .silent h.left.1 h.right.1 (.inr (h.left.2.trans h.right.2.symm)) h.types

section

variable {form form' : Form} {operands operands' : List Node} {t' : Ty}

/-- A form that is silent, is no location and knows its type. -/
def IsPlain (c : Core) (form : Form) (t : Ty) : Prop :=
  (form.isSilent, form.isLocation, (form.typeRule c ·)) = (true, false, fun _ => .known t)

/-- Plain forms over any operands. -/
theorem PlainTwins.known (hclose : Close L t t') (hform : IsPlain env.core form t)
    (hform' : IsPlain env.core form' t') :
    PlainTwins L w ⟨form, operands⟩ ⟨form', operands'⟩ := by
  rw [IsPlain, Prod.mk.injEq, Prod.mk.injEq] at hform hform'
  obtain ⟨hsilent, hlocation, hrule⟩ := hform
  obtain ⟨hsilent', hlocation', hrule'⟩ := hform'
  exact ⟨⟨hsilent, hlocation⟩, ⟨hsilent', hlocation'⟩, .known hclose hrule hrule'⟩

/-- The same form on both sides. -/
theorem PlainTwins.same (ht : L.types t) (hform : IsPlain env.core form t) :
    PlainTwins L w ⟨form, operands⟩ ⟨form, operands'⟩ :=
  .known (.refl ht) hform hform

theorem Twin.known (hclose : Close L t t') (hform : IsPlain env.core form t)
    (hform' : IsPlain env.core form' t') : Twin L w b ⟨form, operands⟩ ⟨form', operands'⟩ :=
  (PlainTwins.known hclose hform hform').twin

theorem Twin.same (ht : L.types t) (hform : IsPlain env.core form t) :
    Twin L w b ⟨form, operands⟩ ⟨form, operands'⟩ :=
  (PlainTwins.same ht hform).twin

end

theorem PlainTwins.unary {op : UnaryOp} (hop : op ≠ .logicalNot) {t' : Ty} (hclose : Close L t t') :
    PlainTwins L w (.unary op l t) (.unary op r t') := by
  have hsilent (t : Ty) : (Form.unary op t).isSilent = true := by
    unfold Form.isSilent
    exact bne_iff_ne.mpr hop
  have hplain (t : Ty) : IsPlain env.core (.unary op t) t := by
    rw [IsPlain, hsilent t]
    rfl
  exact .known hclose (hplain t) (hplain t')

/-- An ordinary location is silent. -/
theorem isSilent_of_isLocation (hn : isOrdinary n = true) (h : n.isLocation = true) :
    n.form.isSilent = true := by
  obtain ⟨form, operands⟩ := n
  cases form <;>
    first
    | rfl
    | exact (Bool.false_ne_true h).elim
    | exact (Bool.false_ne_true hn).elim

/-- The addresses of locations. -/
theorem Twin.takeReference (h : Twin L w false l r) (hl : l.isLocation = true) :
    Twin L w b ⟨.takeReference, [l]⟩ ⟨.takeReference, [r]⟩ := by
  have hr : r.isLocation = true := h.isLocation_eq ▸ hl
  have htypes := h.typedAlike.takeReference
  cases h with
  | var h => exact .address h
  | literal | address | negated => cases hl
  | other hordl hordr _ _ _ _ =>
    have hsilent := isSilent_of_isLocation hordl hl
    have hsilent' := isSilent_of_isLocation hordr hr
    refine .other ?_ ?_ rfl ?_ (.inr rfl) htypes
    · exact Bool.and_eq_true_iff.mpr ⟨hl, hsilent⟩
    · exact Bool.and_eq_true_iff.mpr ⟨hr, hsilent'⟩
    · rintro m (h | h) <;> cases h

theorem Twin.packed (ht : L.types t) (hl : l.form.isSilent = true) (hr : r.form.isSilent = true)
    (hlocation : b = true ∨ l.isLocation = false ∧ r.isLocation = false)
    (hltype : ∀ changes, l.computedType env.core changes = t)
    (hrtype : ∀ changes, r.computedType env.core changes = t) :
    Twin L w b l (Lowerer.packed r t) := by
  have hsame : Twin L w b l r :=
    .silent hl hr (hlocation.imp_right fun h => h.1.trans h.2.symm) (.fixed hltype hrtype (.refl ht))
  unfold Lowerer.packed
  split
  · next element helement =>
    split
    · next harray =>
      have hdull : env.types.Dull t := Hierarchy.dull_of_isArray harray
      have hdull' : env.types.Dull (Core.packedArrayOf element) :=
        Hierarchy.dull_packedArrayOf element
      have hclose : Close L t (Core.packedArrayOf element) :=
        .dull ht (L.packed (L.element ht helement)) hdull hdull'
      have habsent : isNullUnderCasts r = false := congrArg Outline.isAbsent (outlineOf_of_isSilent hr)
      refine .other (isOrdinary_of_isSilent hl) rfl ?_ ?_ (hlocation.imp_right And.left) ?_
      · rw [outlineOf_of_isSilent hl]
        show _ = (⟨false, isNullUnderCasts r, none, none, none⟩ : Outline)
        rw [habsent]
        rfl
      · rw [outlineOf_of_isSilent hl]
        exact Outline.typesIn_blank
      · exact .fixed hltype (fun _ => computedType_known rfl) hclose
    · exact hsame
  · exact hsame

end

end Lowering

end ScriptLowering
