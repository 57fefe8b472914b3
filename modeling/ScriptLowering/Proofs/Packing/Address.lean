import ScriptLowering.Proofs.Packing.Storage

/-!
# Addresses and updates in two runs

The rules that read, write and take addresses keep two runs in step, and so do updates in place. An
update needs a location, so its target may not be the load of a packed field.
-/

namespace ScriptLowering.Lowering

open Script

/-! ### Writes through addresses -/

namespace Lowerer

variable {g : Lowerer} {address value : Node} {element : Ty}

theorem storeThrough_of_isDirect (h : address.form.isDirect = true) :
    g.storeThrough address value element = (do
      if (← g.typeOf address).isPointer then
        return pointerWrite address element value
      else
        g.store (← g.location address) value) := by
  obtain ⟨form, operands⟩ := address
  cases form <;> first | rfl | cases h

theorem storeThrough_of_not_isDirect (h : address.form.isDirect = false)
    (hvar : address.var? = none) :
    g.storeThrough address value element = (do
      if (← g.typeOf address).isPointer then
        return pointerWrite address element value
      else
        return ⟨.writeThrough, [address, value]⟩) := by
  obtain ⟨form, operands⟩ := address
  cases form <;>
    first
    | rfl
    | exact Bool.noConfusion h
    | exact (Option.some_ne_none _ hvar).elim

end Lowerer

section

variable {env : Env} {S : Setting env} {w : Ledger} {l r : Node} {b b' : Bool} {e : Cil.Expr}

theorem Twin.isLocation_locationOf {L : Lexicon env} (h : Twin L w b l r)
    (hdirect : l.form.isDirect = true) (changes changes' : Retyping) :
    (Lowering.locationOf env.core changes l).isLocation = true
      ∧ (Lowering.locationOf env.core changes' r).isLocation = true := by
  have hordinary {n : Node} (hn : isOrdinary n = true) (h : n.form.isDirect = true)
      (changes : Retyping) : (Lowering.locationOf env.core changes n).isLocation = true := by
    obtain ⟨form, operands⟩ := n
    cases form <;>
      first
      | rfl
      | exact (Bool.and_eq_true_iff.mp hn).1
      | exact Bool.noConfusion h
  cases h with
  | address => exact ⟨rfl, rfl⟩
  | var | literal | negated => cases hdirect
  | other hl hr houtline _ _ _ =>
    have hdirect' : l.form.isDirect = r.form.isDirect := congrArg Outline.isDirect houtline
    rw [hdirect] at hdirect'
    exact ⟨hordinary hl hdirect changes, hordinary hr hdirect'.symm changes'⟩

namespace Pair

variable {p : Pair env}

theorem storeDirect (h : Twin S.L w b l r) (hdirect : l.form.isDirect = true)
    {value value' : Node} :
    Couples S w (do p.left.store (← p.left.location l) value)
      (do p.right.store (← p.right.location r) value') (Twins S b') := by
  have hlocation : Still S w (p.left.location l) (p.right.location r)
      (fun n n' => (n.isLocation = true ∧ n'.isLocation = true) ∧ TypedAlike S.L w n n') := by
    refine .reading fun c c' hc => ⟨?_, (h.locationOf hc.left hc.right).typedAlike⟩
    exact h.isLocation_locationOf hdirect _ _
  refine hlocation.bind ?_
  rintro n n' ⟨⟨hn, hn'⟩, htypes⟩
  exact store hn hn' htypes

theorem typedAlike_receiver {v v' : Variable} (hv : TwinVariables S.L w v v')
    (hthis : v.isThis = true) :
    TypedAlike S.L w (.dereference (.ofVariable v)) (.dereference (.ofVariable v')) := by
  intro w' changes changes' hle hl hr
  have harray := hv.receiver hthis
  have htype := hl.typeOf_eq (hv.left.later hle.left) harray
  rw [hv.declaredType] at harray
  have htype' := hr.typeOf_eq (hv.right.later hle.right) harray
  simp only [Node.dereference, Node.ofVariable, Node.computedType, Form.typeRule, Node.typeAt]
  rw [htype, htype', ← hv.declaredType]
  exact .refl (S.L.referent hv.types)

/-- A write through an address. -/
theorem storeThrough (h : Twin S.L w b l r) {value value' : Node}
    (hvalue : TypedAlike S.L w value value') {element : Ty} :
    Couples S w (p.left.storeThrough l value element) (p.right.storeThrough r value' element)
      (Twins S b') := by
  have hpointers {x y : Lower Node} (hxy : Couples S w x y (Twins S b')) :
      Couples S w
        (do if (← p.left.typeOf l).isPointer then return pointerWrite l element value else x)
        (do if (← p.right.typeOf r).isPointer then return pointerWrite r element value' else y)
        (Twins S b') := by
    refine (typeOf h.typedAlike).bind fun t t' hclose => ?_
    have hiff := Bool.eq_iff_iff.mp hclose.isPointer_eq
    refine .ite hiff (fun _ => .pure ?_) fun _ => hxy
    have hvalues : PlainTwins S.L w (pointerWrite l element value) (pointerWrite r element value') :=
      .known (.refl S.L.void) rfl rfl
    exact hvalues.twin
  have hwrite : Twin S.L w b' ⟨.writeThrough, [l, value]⟩ ⟨.writeThrough, [r, value']⟩ := by
    refine .silent rfl rfl (.inr rfl) ?_
    intro w' changes changes' hle hl hr
    simp only [Node.computedType, Form.typeRule, Node.typeAt]
    exact hvalue hle hl hr
  have hdirect : l.form.isDirect = r.form.isDirect := congrArg Outline.isDirect h.outline_eq
  cases hcase : l.form.isDirect with
  | true =>
    rw [hcase] at hdirect
    rw [Lowerer.storeThrough_of_isDirect hcase, Lowerer.storeThrough_of_isDirect hdirect.symm]
    exact hpointers (storeDirect h hcase)
  | false =>
    rw [hcase] at hdirect
    -- Only a variable that is the receiver is written to in another way.
    have hother (hl : l.var? = none) (hr : r.var? = none) :
        Couples S w (p.left.storeThrough l value element) (p.right.storeThrough r value' element)
          (Twins S b') := by
      rw [Lowerer.storeThrough_of_not_isDirect hcase hl,
        Lowerer.storeThrough_of_not_isDirect hdirect.symm hr]
      exact hpointers (.pure hwrite)
    cases h with
    | @var v v' hv =>
      refine hpointers ?_
      show Couples S w (if v.isThis then _ else _) (if v'.isThis then _ else _) _
      have hiff := Bool.eq_iff_iff.mp hv.isThis_eq
      refine .ite hiff (fun hthis => ?_) fun _ => .pure hwrite
      exact ((assign (fun _ => rfl) (typedAlike_receiver hv hthis)).mono fun _ _ h => h.twin).last
    | literal | negated | address => exact hother rfl rfl
    | other hl hr _ _ _ _ => exact hother (Twin.var?_of_isOrdinary hl) (Twin.var?_of_isOrdinary hr)

theorem hoistIndices (h : Twin S.L w false l r) :
    Couples S w (p.left.hoistIndices l) (p.right.hoistIndices r)
      (fun w' a b => a.2.isLocation = b.2.isLocation ∧ TypedAlike S.L w' a.2 b.2) := by
  refine (Spilling.couples (fun _ => Lowerer.spilling_hoistIndices l)
    fun _ => Lowerer.spilling_hoistIndices r).mono ?_
  rintro w' ⟨prelude, target⟩ ⟨prelude', target'⟩ hle ⟨-, -, -, -, ⟨hl, htype⟩, hr, htype'⟩
  refine ⟨?_, ?_⟩
  · rw [hl, hr, h.isLocation_eq]
  · intro w₁ changes changes' hle₁ hchanges hchanges'
    have hclose := h.typedAlike (hle.trans hle₁) hchanges hchanges'
    exact (htype changes).symm ▸ (htype' changes').symm ▸ hclose

theorem incrementBy (hlocation : l.isLocation = r.isLocation) (htypes : TypedAlike S.L w l r)
    {t t' : Ty} (hclose : Close S.L t t') {delta : Int64} :
    Couples S w (p.left.incrementBy l t delta) (p.right.incrementBy r t' delta)
      (fun w' n n' => PlainTwins S.L w' n n') := by
  refine (Couples.newTemporary hclose).bind ?_
  rintro w₁ _ _ hle ⟨⟨v, v', rfl, rfl⟩, hold⟩
  refine (assign (fun _ => rfl) hold).bind fun keep keep' _ => ?_
  refine (compoundAssign (fun h => hlocation ▸ h) (htypes.later hle)).bind fun update update' _ => ?_
  refine .pure ⟨⟨rfl, rfl⟩, ⟨rfl, rfl⟩, ?_⟩
  intro w' changes changes' hle hl hr
  simp only [Node.comma, Node.computedType, Form.typeRule, Node.lastType]
  exact hold hle hl hr

namespace InStep

variable (hp : p.InStep S) (he : S.Admits e)

include hp he

/-! ### Addresses -/

omit hp in
theorem referentType {t t' : Ty} (hclose : Close S.L t t') (hpointer : t.isPointer = true) :
    Still S w (Lowerer.referentType e t) (Lowerer.referentType e t') (Close S.L) := by
  obtain ⟨u, u', hu, hu', huu'⟩ := hclose.elementType? (.inr hpointer)
  unfold Lowerer.referentType
  rw [hu, hu']
  intro s s' _ a st hrun
  cases htype : e.type? with
  | some element =>
    rw [htype] at hrun
    cases hrun
    exact ⟨rfl, _, rfl, .refl (he.type? htype)⟩
  | none =>
    rw [htype] at hrun
    cases hrun
    exact ⟨rfl, u', rfl, huu'⟩

theorem loadIndirect :
    Couples S w (p.left.loadIndirect e) (p.right.loadIndirect e)
      (Twins S (someLoadsPacked env.directives e.arguments)) := by
  refine .operand he hp.raw fun _ hmem w₁ l r _ h => ?_
  refine (typeOf h.typedAlike).bind fun t t' hclose => ?_
  have hiff := Bool.eq_iff_iff.mp hclose.isPointer_eq
  refine .ite hiff (fun hpointer => ?_) fun _ => ?_
  · refine (referentType he hclose hpointer).bind fun u u' huu' => .pure ?_
    have hvalues : PlainTwins S.L w₁ (pointerRead l u) (pointerRead r u') :=
      .known huu' rfl rfl
    exact hvalues.twin
  · exact ((location h).mono fun _ _ h => h.loosen (someLoadsPacked_of_mem hmem)).last

theorem storeIndirect (htype : e.type?.isSome = true) :
    Couples S w (p.left.storeIndirect e) (p.right.storeIndirect e) (Twins S b) := by
  obtain ⟨element, htype⟩ := Option.isSome_iff_exists.mp htype
  have helement := he.type? htype
  have hreferent (t : Ty) : Lowerer.referentType e t = Pure.pure element := by
    unfold Lowerer.referentType
    rw [htype]
    rfl
  refine .operand he hp.raw fun _ _ w₁ l r _ h => ?_
  refine (typeOf h.typedAlike).bind fun t t' _ => ?_
  rw [hreferent, hreferent]
  refine .operand he (hp.expecting · helement) fun _ _ w₂ value value' hle hvalue => ?_
  refine (copy hvalue.typedAlike).bind fun n n' hcopy => ?_
  exact storeThrough (h.later hle) hcopy.1

theorem initObject : Couples S w (p.left.initObject e) (p.right.initObject e) (Twins S b) := by
  refine .typeOperand he fun t ht => ?_
  refine .operand he hp.raw fun _ _ w₁ l r _ h => ?_
  exact storeThrough h (.known (.refl ht) rfl rfl)

theorem copyObject : Couples S w (p.left.copyObject e) (p.right.copyObject e) (Twins S b) := by
  refine .typeOperand he fun t ht => ?_
  refine .operand he hp.raw fun _ _ w₁ destination destination' _ hdestination => ?_
  refine .operand he hp.raw fun _ _ w₂ source source' hle hsource => ?_
  refine (location hsource).bind fun n n' hn => ?_
  refine (copy hn.typedAlike).bind fun value value' hvalue => ?_
  exact storeThrough (hdestination.later hle) hvalue.1

theorem addressOf (hplain : someLoadsPacked env.directives e.arguments = false) :
    Couples S w (p.left.addressOf e) (p.right.addressOf e) (Twins S b) := by
  refine .operand he hp.raw fun _ hmem w₁ l r _ h => ?_
  have h : Twin S.L w₁ false l r := h.loosen (loadsPacked_ne_true hmem hplain)
  obtain ⟨hl, hr⟩ := h.uncopied
  rw [hl, hr]
  have hiff := Bool.eq_iff_iff.mp h.isLocation_eq
  refine .ite hiff (fun hlocation => ?_) fun _ => ?_
  · refine Still.last (.ofExcept fun n hn => ?_)
    rw [eq_of_make hn]
    exact ⟨_, takeReference_of_isLocation (hiff.mp hlocation), h.takeReference hlocation⟩
  · refine (typeOf h.typedAlike).bind fun t t' hclose => ?_
    refine (Couples.newTemporary hclose).bind ?_
    rintro w₂ _ _ - ⟨⟨v, v', rfl, rfl⟩, htypes⟩
    refine (assign (fun _ => rfl) htypes).bind fun spill spill' _ => .pure ?_
    refine .silent rfl rfl (.inr rfl) ?_
    intro w' changes changes' hle hl hr
    simp only [Node.comma, Node.computedType, Form.typeRule, Node.lastType, Node.typeAt]
    exact .byRef (htypes hle hl hr)

/-! ### Updates -/

theorem compoundAssignment
    (hplain : ∀ operation ∈ e.arguments,
      someLoadsPacked env.directives operation.arguments = false) :
    Couples S w (p.left.compoundAssignment e) (p.right.compoundAssignment e) (Twins S b) := by
  refine .argument he fun operation hmem hoperation => ?_
  split
  · exact .throw
  · next op _ =>
    refine .argument hoperation fun load hload haload => ?_
    refine .ite Iff.rfl (fun _ => .throw) fun _ => ?_
    refine (hp.raw haload w).bind fun w₁ l r _ h => ?_
    have h : Twin S.L w₁ false l r := h.loosen (loadsPacked_ne_true hload (hplain _ hmem))
    refine (hoistIndices h).bind ?_
    rintro w₂ ⟨prelude, target⟩ ⟨prelude', target'⟩ - ⟨hlocation, htypes⟩
    refine (typeOf htypes).bind fun t t' hclose => ?_
    refine .argument hoperation fun operand _ haoperand => ?_
    have hassign (w₃ : Ledger) (value value' : Node) (hle : w₂.Le w₃) :
        Couples S w₃
          (do return afterPrelude prelude (← p.left.compoundAssign op target value))
          (do return afterPrelude prelude' (← p.right.compoundAssign op target' value'))
          (Twins S b) := by
      have hstill : Still S w₃ (p.left.compoundAssign op target value)
          (p.right.compoundAssign op target' value') (PlainTwins S.L w₃) :=
        compoundAssign (fun h => hlocation ▸ h) (htypes.later hle)
      exact hstill.bind fun _ _ h => .pure (h.afterPrelude prelude prelude').twin
    dsimp only
    split
    · exact (hp.expression haoperand w₂).bind fun w₃ value value' hle _ => hassign w₃ _ _ hle
    · refine (hp.expectingEach haoperand hclose.left hclose.right w₂).bind ?_
      exact fun w₃ value value' hle _ => hassign w₃ _ _ hle

theorem postIncrement (hplain : someLoadsPacked env.directives e.arguments = false) :
    Couples S w (p.left.postIncrement e) (p.right.postIncrement e) (Twins S b) := by
  unfold Lowerer.postIncrement
  split
  · exact .throw
  · next delta _ =>
    refine .argument he fun a hmem ha => ?_
    refine (hp.receiver ha w).bind ?_
    rintro w₁ l r - ⟨h, -⟩
    have h : Twin S.L w₁ false l r := h.loosen (loadsPacked_ne_true hmem hplain)
    have hiff := Iff.of_eq (congrArg (fun b => (!b) = true) h.isLocation_eq)
    refine .ite hiff (fun _ => .throw) fun _ => ?_
    refine (hoistIndices h).bind ?_
    rintro w₂ ⟨prelude, target⟩ ⟨prelude', target'⟩ - ⟨hlocation, htypes⟩
    refine (typeOf htypes).bind fun t t' hclose => ?_
    have hunary (op : UnaryOp) (hop : op ≠ .logicalNot) :
        PlainTwins S.L w₂ (.unary op target t) (.unary op target' t') := .unary hop hclose
    dsimp only
    split
    · exact .pure ((hunary .postIncrement (by decide)).afterPrelude prelude prelude').twin
    · split
      · exact .pure ((hunary .postDecrement (by decide)).afterPrelude prelude prelude').twin
      · refine (incrementBy hlocation htypes hclose).bind fun w₃ n n' _ h => .pure ?_
        exact (h.afterPrelude prelude prelude').twin

end InStep

end Pair

end

end ScriptLowering.Lowering
