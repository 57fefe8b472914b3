import ScriptLowering.Proofs.Lowering.Criterion

/-!
# Coercions, storage and updates yield values

For each helper of the storage rules, what it makes of values; then, for each rule, that it yields a
value by every criterion that is closed. Storing a packed array in an array variable is where the
type of a variable changes.
-/

namespace ScriptLowering

open Script

theorem Script.Literal.types_of_retype? {l l' : Literal} {target : Ty}
    (h : l.retype? target = some l') : ∀ t ∈ l'.types, t = target := by
  unfold Literal.retype? at h
  obtain ⟨value, -, h⟩ := Option.bind_eq_some_iff.mp h
  split at h
  · cases h
    simp
  · split at h
    · cases h
      simp [Literal.ofEnum]
    · obtain ⟨kind, -, h⟩ := Option.bind_eq_some_iff.mp h
      split at h <;> cases h <;> simp [Literal.charOfInt64, Literal.floatOfInt64]

namespace Lowering

theorem exists_literal_of_literalAs? {node constant : Node} {expected : Ty}
    (h : literalAs? node expected = some constant) :
    ∃ l : Literal, constant = .literal l ∧ l.isCanonical = true ∧ ∀ t ∈ l.types, t = expected := by
  unfold literalAs? at h
  simp only [Option.bind_eq_bind, Option.bind_eq_some_iff] at h
  obtain ⟨l, -, h⟩ := h
  split at h
  · exact ⟨.null expected, (Option.some.inj h).symm, rfl, by simp⟩
  · obtain ⟨l', hl', h⟩ := Option.bind_eq_some_iff.mp h
    exact ⟨l', (Option.some.inj h).symm, Literal.isCanonical_of_retype? hl',
      Literal.types_of_retype? hl'⟩

theorem not_isAssignment_of_toCompound? {op compound : BinaryOp}
    (h : op.toCompound? = some compound) : op.isAssignment = false := by
  cases op <;> first | rfl | cases h

theorem isIntegral_deltaKind (t : Ty) : (deltaKind t).isIntegral = true := by
  unfold deltaKind
  split
  · split
    · assumption
    · rfl
  · rfl

namespace Criterion.Closed

variable {g : Lowerer} {C : Criterion g} (hC : C.Closed) {α : Type} {s : State}
  {vs : List Variable} {e : Cil.Expr} {n : Node}
include hC

/-! ### Values -/

theorem leaf {form : Form} (hform : form.isGeneral = true) (htakes : form.Takes 0)
    (htypes : ∀ t ∈ form.types, C.types t) : C.Value s vs ⟨form, []⟩ :=
  hC.general hform htakes htypes (List.forall_mem_nil _)

theorem around {form : Form} (hform : form.isGeneral = true) (htakes : form.Takes 1)
    (htypes : ∀ t ∈ form.types, C.types t) (hn : C.Value s vs n) : C.Value s vs ⟨form, [n]⟩ :=
  hC.general hform htakes htypes (List.forall_mem_singleton.mpr hn)

theorem pair {form : Form} {m : Node} (hform : form.isGeneral = true) (htakes : form.Takes 2)
    (htypes : ∀ t ∈ form.types, C.types t) (hn : C.Value s vs n) (hm : C.Value s vs m) :
    C.Value s vs ⟨form, [n, m]⟩ :=
  hC.general hform htakes htypes (List.forall_mem_cons.mpr ⟨hn, List.forall_mem_singleton.mpr hm⟩)

theorem empty : C.Value s vs .empty :=
  hC.leaf rfl rfl (by simp)

theorem elementAccess {element : Ty} {array : Node} {indices : List Node}
    (helement : C.types element) (hindices : indices ≠ [])
    (h : ∀ o ∈ array :: indices, C.Part s vs o) :
    C.Value s vs (.elementAccess element array indices) :=
  hC.loose rfl (Nat.succ_le_succ (List.length_pos_iff.mpr hindices)) (by simpa using helement) h

theorem part_getD (hform : n.form.isLoose = true) (hn : C.Part s [] n) {o? : Option Node}
    (ho : ∀ o, o? = some o → o ∈ n.operands) : C.Part s [] (o?.getD .empty) := by
  obtain ⟨form, operands⟩ := n
  cases o? with
  | none => exact hC.part hC.empty
  | some o => exact (hC.parts hform hn).2 o (ho o rfl)

theorem fieldAccess {f : Field} (hf : ∀ t ∈ f.types, C.types t) (hn : C.Value s vs n) :
    C.Value s vs (.fieldAccess f n) :=
  hC.around rfl rfl hf hn

/-! ### Coercion -/

theorem coerced {h : Hierarchy} {c : Context} {expected : Ty} (hexpected : C.types expected)
    (hn : C.Value s [] n) : C.Value s [] (coerced h c n expected) := by
  unfold Lowering.coerced
  split
  · exact hn
  · simp only
    split
    · exact hn
    · split
      · next constant hconstant =>
        obtain ⟨l, rfl, hcanonical, htypes⟩ := exists_literal_of_literalAs? hconstant
        exact hC.literal hcanonical fun t ht => htypes t ht ▸ hexpected
      · split
        · exact hC.around rfl rfl (by simpa using hexpected) hn
        · exact hn

theorem coerce {expected : Ty} (hexpected : C.types expected) (hn : C.Value s [] n) :
    C.Gives (g.coerce n expected) s :=
  hC.reading _ (fun _ => rfl) (hC.pure (hC.coerced hexpected hn))

theorem expecting (he : C.Lowers e) {type : Ty} (htype : C.types type) :
    C.Gives (g.expecting e type) s :=
  hC.bind (hC.raw he) fun _ _ _ hn => hC.coerce htype hn

theorem expression (he : C.Lowers e) : C.Gives (g.expression e) s := by
  refine hC.bind (hC.raw he) fun s' n _ hn => ?_
  split
  · next expected hexpected =>
    exact hC.coerce ((hC.covers (hC.applies he)).expected hexpected) hn
  · exact hC.pure hn

theorem uncast (he : C.Lowers e) : C.Gives (g.uncast e) s :=
  hC.withAutoCast fun _ => hC.raw he

theorem condition (he : C.Lowers e) : C.Gives (g.condition e) s :=
  hC.expecting he C.lexicon.boolean

/-! ### Locations and copies -/

variable {value target : Node} {post : State → α → Prop}

/-- What follows the location of a value. -/
theorem location {f : Node → Lower α} (hn : C.Value s [] n)
    (hf : ∀ m, C.Value s [] m → C.Meets (f m) s post) : C.Meets (g.location n >>= f) s post :=
  hC.fitting fun hs => hC.reading _ (fun _ => rfl) (hf _ (hC.locationOf hs hn))

theorem copied {c : Core} {r : Retyping} (hn : C.Value s [] n) : C.Value s [] (copied c r n) := by
  unfold Lowering.copied
  split
  · exact hC.structCopy hn
  · exact hn

/-- What follows a copy of a value. -/
theorem copy {f : Node → Lower α} (hn : C.Value s [] n)
    (hf : ∀ m, C.Value s [] m → C.Meets (f m) s post) : C.Meets (g.copy n >>= f) s post := by
  refine hC.reading (Lowering.copied g.core s.context.scope.retyping n) (fun _ => rfl) ?_
  exact hf _ (hC.copied hn)

theorem packed {declared : Ty} (hdeclared : C.types declared) (hn : C.Value s [] n) :
    C.Value s [] (Lowerer.packed n declared) := by
  unfold Lowerer.packed
  split
  · next element helement =>
    have hpacked := C.lexicon.packed (C.lexicon.element hdeclared helement)
    split
    · exact hC.around rfl rfl (by simpa using hpacked) hn
    · exact hn
  · exact hn

theorem foldable? {h : Hierarchy} {r : Retyping} {right : Node} {op : BinaryOp}
    (hvalue : C.Value s [] value) (hfold : foldable? h r target value = some (op, right)) :
    C.Part s [] right := by
  unfold Lowering.foldable? at hfold
  split at hfold
  · split at hfold
    · next hcompound =>
      split at hfold
      · cases hfold
        refine hC.part_getD ?_ (hC.part hvalue) fun _ ho => List.mem_of_getLast? ho
        simp [Form.isLoose, not_isAssignment_of_toCompound? hcompound]
      · cases hfold
    · cases hfold
  · cases hfold

/-! ### Pointers -/

theorem splitPointer (hn : C.Part s [] n) (element : Ty) :
    C.Part s [] (splitPointer n element).pointer
      ∧ C.Part s [] (splitPointer n element).offset := by
  unfold Lowering.splitPointer
  split
  · next type operands =>
    have hpointer : C.Part s [] (operands.head?.getD .empty) :=
      hC.part_getD rfl hn fun _ ho => List.mem_of_head? ho
    have hdelta : C.Part s [] (operands[1]?.getD .empty) :=
      hC.part_getD rfl hn fun _ ho => List.mem_of_getElem? ho
    simp only
    split
    · next result factors hfactors =>
      rw [hfactors] at hdelta
      split
      · exact ⟨hpointer, hC.part_getD rfl hdelta fun _ ho => List.mem_of_head? ho⟩
      · rw [hfactors]
        exact ⟨hpointer, hdelta⟩
    · exact ⟨hpointer, hdelta⟩
  · exact ⟨hn, hC.part hC.empty⟩

theorem pointerRead {element : Ty} (helement : C.types element) (hn : C.Value s [] n) :
    C.Value s [] (pointerRead n element) := by
  obtain ⟨hpointer, hoffset⟩ := hC.splitPointer (hC.part hn) element
  exact hC.loose rfl rfl (by simpa using helement) (by simp [hpointer, hoffset])

theorem pointerWrite {element : Ty} (helement : C.types element) (hn : C.Value s [] n)
    (hvalue : C.Value s [] value) : C.Value s [] (pointerWrite n element value) := by
  obtain ⟨hpointer, hoffset⟩ := hC.splitPointer (hC.part hn) element
  exact hC.loose rfl rfl (by simpa using helement) (by simp [hpointer, hoffset, hC.part hvalue])

/-! ### Stores -/

theorem assign (htarget : C.Part s [] target) (hvalue : C.Part s [] value) :
    C.Gives (g.assign target value) s :=
  hC.compoundAssign (fun hs => hC.computedType hs htarget) fun _ ht hlocation =>
    hC.assignment htarget hvalue hlocation ht

/-- A value is kept in a temporary. -/
theorem keep {v : Variable} (hv : C.Temporary s v) (hvalue : C.Part s vs value) :
    C.Meets (g.assign (.ofVariable v) value) s fun s' n =>
      C.Value s' vs n ∧ ∃ t, n = .binary .assign (.ofVariable v) value t := by
  refine hC.compoundAssign (fun hs => ?_) fun t ht _ => ⟨hC.assignTemporary hv hvalue ht, t, rfl⟩
  exact hC.computedType hs (hC.part (hC.temporary hv (List.mem_singleton_self v)))

theorem updated {prelude : List Node} {op : BinaryOp} (hprelude : ∀ p ∈ prelude, C.Value s [] p)
    (htarget : C.Value s (assignedVariables prelude) target)
    (hvalue : C.Part s (assignedVariables prelude) value) :
    C.Gives (do return afterPrelude prelude (← g.compoundAssign op target value)) s := by
  have hassign : C.Meets (g.compoundAssign op target value) s
      fun s' n => C.Value s' [] (afterPrelude prelude n) := by
    refine hC.compoundAssign (fun hs => hC.computedType hs (hC.part htarget)) ?_
    intro t ht hlocation
    refine hC.afterPrelude hprelude ?_
    rw [List.append_nil]
    exact hC.assignment (hC.part htarget) hvalue hlocation ht
  exact hC.bind hassign fun _ _ _ h => hC.pure h

theorem hoistEach :
    ∀ {indices : List Node} {s : State}, (∀ i ∈ indices, C.Part s [] i) →
      C.Meets (g.hoistEach indices) s fun s' hoisted =>
        (∀ p ∈ hoisted.1, C.Value s' [] p)
          ∧ (∀ i ∈ hoisted.2, C.Part s' (assignedVariables hoisted.1) i)
          ∧ hoisted.2.length = indices.length
  | [], _, _ => hC.pure (by simp)
  | index :: rest, s, h => by
    obtain ⟨hindex, hrest⟩ := List.forall_mem_cons.mp h
    unfold Lowerer.hoistEach
    split
    · -- The index can be read twice and stays in place.
      refine hC.bind (hoistEach hrest) fun s' hoisted h' hhoisted => ?_
      obtain ⟨hprelude, hindices, hlength⟩ := hhoisted
      refine hC.pure ⟨hprelude, List.forall_mem_cons.mpr ⟨?_, hindices⟩, by simp [hlength]⟩
      exact hC.weakenPart (hC.part_later h' hindex) (List.nil_subset _)
    · -- The index moves to a temporary.
      refine hC.typeOf hindex fun type htype => ?_
      refine hC.bind (hC.newTemporary htype) fun s₁ temporary h₁ htemporary => ?_
      obtain ⟨v, hv, rfl⟩ := htemporary
      refine hC.bind (hoistEach fun i hi => hC.part_later h₁ (hrest i hi))
        fun s₂ hoisted h₂ hhoisted => ?_
      obtain ⟨hprelude, hindices, hlength⟩ := hhoisted
      have hv := hC.temporary_later h₂ hv
      have hassign := hC.assignTemporary hv (hC.part_later (hC.trans h₁ h₂) hindex) htype
      have hassigned : assignedVariables (.binary .assign (.ofVariable v) index type :: hoisted.1)
          = v :: assignedVariables hoisted.1 := rfl
      refine hC.pure ⟨List.forall_mem_cons.mpr ⟨hassign, hprelude⟩, ?_, by simp [hlength]⟩
      rw [hassigned]
      refine List.forall_mem_cons.mpr ⟨hC.part (hC.temporary hv List.mem_cons_self), ?_⟩
      exact fun i hi => hC.weakenPart (hindices i hi) (List.subset_cons_self _ _)

theorem hoistIndices (h : C.Value s [] target) :
    C.Meets (g.hoistIndices target) s fun s' hoisted =>
      (∀ p ∈ hoisted.1, C.Value s' [] p)
        ∧ C.Value s' (assignedVariables hoisted.1) hoisted.2
        ∧ (target.isLocation = true → hoisted.2.isLocation = true) := by
  unfold Lowerer.hoistIndices
  split
  · next element array first second rest =>
    obtain ⟨helement, hoperands⟩ := hC.parts rfl (hC.part h)
    obtain ⟨harray, hindices⟩ := List.forall_mem_cons.mp hoperands
    refine hC.bind (hC.hoistEach hindices) fun s' hoisted h' hhoisted => ?_
    obtain ⟨hprelude, hindices', hlength⟩ := hhoisted
    have harray := hC.weakenPart (hC.part_later h' harray)
      (List.nil_subset (assignedVariables hoisted.1))
    refine hC.pure ⟨hprelude, ?_, fun _ => rfl⟩
    exact hC.loose rfl (by simp [Form.Takes, Form.fixedArity?, Form.minArity, hlength]) helement
      (List.forall_mem_cons.mpr ⟨harray, hindices'⟩)
  · exact hC.pure ⟨by simp, h, id⟩

theorem store (htarget : C.Value s [] target) (hvalue : C.Value s [] value) :
    C.Gives (g.store target value) s := by
  refine hC.reading _ (fun _ => rfl) ?_
  split
  · next op right hfold =>
    -- The value is an operation on the target, so the store becomes an update.
    have hright := hC.foldable? hvalue hfold
    refine hC.bind (hC.hoistIndices htarget) fun s₁ hoisted h₁ hhoisted => ?_
    refine hC.updated hhoisted.1 hhoisted.2.1 ?_
    exact hC.weakenPart (hC.part_later h₁ hright) (List.nil_subset _)
  · exact hC.assign (hC.part htarget) (hC.part hvalue)

theorem storeThrough {address : Node} {element : Ty} (helement : C.types element)
    (haddress : C.Value s [] address) (hvalue : C.Value s [] value) :
    C.Gives (g.storeThrough address value element) s := by
  have hwrite := hC.writeThrough haddress hvalue
  have hstore : C.Gives (do g.store (← g.location address) value) s :=
    hC.location haddress fun target htarget => hC.store htarget hvalue
  have hreferent (hs : C.Fits s) : C.types
      ((Node.dereference address).computedType g.core s.context.scope.retyping) :=
    C.lexicon.referent (hC.computedType hs (hC.part haddress))
  refine hC.typeOf (hC.part haddress) fun type _ => ?_
  split
  · exact hC.pure (hC.pointerWrite helement haddress hvalue)
  · split
    · exact hstore
    · exact hstore
    · exact hstore
    · split
      · exact hC.compoundAssign hreferent fun t ht _ => hC.assignReferent haddress hvalue ht
      · exact hC.pure hwrite
    · exact hC.pure hwrite

theorem referentType (he : C.Applies e) {address : Ty} (haddress : C.types address)
    {f : Ty → Lower α} (hf : ∀ t, C.types t → C.Meets (f t) s post) :
    C.Meets (Lowerer.referentType e address >>= f) s post := by
  unfold Lowerer.referentType
  split
  · next t ht =>
    refine hC.reading t (fun _ => rfl) (hf t ?_)
    rcases htype : e.type? with _ | u
    · rw [htype] at ht
      rcases helement : address.elementType? with _ | u
      · rw [helement] at ht
        exact (hC.covers he).inferred ht
      · rw [helement] at ht
        cases ht
        exact C.lexicon.element haddress helement
    · rw [htype] at ht
      cases ht
      exact hC.types_type? he htype
  · exact hC.failing rfl

theorem typeTargetUnder {t : Ty} (ht : C.types t) (directive? : Option TypeDirective) :
    C.Value s vs (Lowerer.typeTargetUnder g.core directive? t) := by
  have htype : C.types g.core.type := C.lexicon.type
  unfold Lowerer.typeTargetUnder
  split
  · exact hC.leaf rfl rfl (by simpa using htype)
  · exact hC.leaf rfl rfl (by simpa using ht)

theorem typeTarget {t : Ty} (ht : C.types t) : C.Gives (g.typeTarget t) s :=
  hC.bind (hC.asks (.type t)) fun _ directive? _ _ =>
    hC.pure (hC.typeTargetUnder ht directive?)

theorem ignoredField {f : Field} (hf : ∀ t ∈ f.types, C.types t) :
    C.Value s vs (ignoredField f) :=
  hC.leaf rfl rfl (by simpa using hf _ (by simp [Field.types]))

/-! ### Variables -/

theorem loadLocal (he : C.Applies e) : C.Gives (g.loadLocal e) s :=
  hC.ownVariable he fun _ _ hv => hC.pure (hC.own hv)

theorem storeLocal (he : C.Applies e) : C.Gives (g.storeLocal e) s := by
  refine hC.ownVariable he fun s₁ v hv => ?_
  refine hC.argument he fun a ha => ?_
  refine hC.fitting fun hs => hC.reading (s₁.context.scope.typeOf v) (fun _ => rfl) ?_
  refine hC.bind (hC.expecting ha (hC.variableType hs hv)) fun s₂ value h₂ hvalue => ?_
  have hv := hC.own_later h₂ hv
  -- The last step is the same whether or not the variable was given another type.
  have hstore : ∀ s₃ : State, C.Later s₂ s₃ →
      C.Gives (do g.store (.ofVariable v) (← g.copy value)) s₃ := by
    intro s₃ h₃
    refine hC.copy (hC.value_later h₃ hvalue) fun copy hcopy => ?_
    exact hC.store (hC.own (hC.own_later h₃ hv)) hcopy
  refine hC.typeOf (hC.part hvalue) fun type htype => ?_
  refine hC.reading (s₂.context.scope.typeOf v) (fun _ => rfl) ?_
  simp only
  split
  · next hpacks =>
    obtain ⟨hpacked, harray⟩ := Bool.and_eq_true_iff.mp hpacks
    exact hC.bind (hC.retype hv htype hpacked harray) fun s₃ _ h₃ _ => hstore s₃ h₃
  · exact hstore s₂ (hC.refl s₂)

theorem localAddress (he : C.Applies e) : C.Gives (g.localAddress e) s :=
  hC.ownVariable he fun _ _ hv => hC.make (hC.takeReference (hC.own hv) rfl)

/-! ### Fields -/

theorem receiver (he : C.Lowers e) :
    C.Meets (g.receiver e) s fun s' n => C.Value s' [] n ∧
      ∀ f : Field, (∀ t ∈ f.types, C.types t) → C.Value s' [] ⟨.memberReference f, [n]⟩ := by
  refine hC.bind (hC.raw he) fun s' n _ hn => ?_
  refine hC.fitting fun hs => hC.reading _ (fun _ => rfl) (hC.pure ⟨hC.locationOf hs hn, ?_⟩)
  exact fun f hf => hC.memberReference hs hn hf

section

variable (he : C.Applies e)
include he

theorem fieldTarget {f : Field} (hf : ∀ t ∈ f.types, C.types t) :
    C.Meets (g.fieldTarget e f) s fun s' n =>
      C.Value s' [] n ∧ C.Value s' [] ⟨.memberReference f, [n]⟩ := by
  unfold Lowerer.fieldTarget
  split
  · refine hC.bind (hC.asks (.type ..)) fun _ directive? _ _ => hC.pure ?_
    exact ⟨hC.typeTargetUnder (hf _ (by simp [Field.types])) directive?, hC.staticReference hf⟩
  · refine hC.argument he fun a ha => ?_
    exact hC.mono (hC.receiver ha) fun _ _ _ hn => ⟨hn.1, hn.2 f hf⟩

theorem loadField : C.Gives (g.loadField e) s := by
  refine hC.fieldOperand he fun f hf => ?_
  refine hC.bind (hC.asks (.field f)) fun _ directive? _ _ => ?_
  split
  · exact hC.pure (hC.ignoredField hf)
  · refine hC.bind (hC.fieldTarget he hf) fun s' target _ htarget => hC.pure ?_
    have haccess := hC.fieldAccess hf htarget.1
    split
    · exact hC.packed (hf _ (by simp [Field.types])) haccess
    · exact haccess

theorem storeField : C.Gives (g.storeField e) s := by
  refine hC.fieldOperand he fun f hf => ?_
  refine hC.bind (hC.asks (.field f)) fun _ directive? _ _ => ?_
  split
  · exact hC.pure (hC.ignoredField hf)
  · refine hC.bind (hC.fieldTarget he hf) fun s₁ target _ htarget => ?_
    have htype : C.types f.type := hf _ (by simp [Field.types])
    refine hC.operand he (hC.expecting · htype) fun s₂ value h₂ hvalue => ?_
    refine hC.copy hvalue fun copy hcopy => ?_
    exact hC.store (hC.fieldAccess hf (hC.value_later h₂ htarget.1)) hcopy

theorem fieldAddress : C.Gives (g.fieldAddress e) s := by
  refine hC.fieldOperand he fun f hf => ?_
  exact hC.bind (hC.fieldTarget he hf) fun s' target _ htarget => hC.make htarget.2

/-! ### Arrays -/

theorem newArray : C.Gives (g.newArray e) s := by
  refine hC.typeOperand he fun element helement => ?_
  refine hC.bind (hC.eachValue fun a ha _ => hC.expecting (hC.lowers he ha) C.lexicon.int32)
    fun s' dimensions _ hdimensions => ?_
  split
  · exact hC.throw rfl
  · next hnonempty =>
    refine hC.pure (hC.general rfl ?_ (by simpa using helement) hdimensions.2)
    exact List.length_pos_iff.mpr (by simpa using hnonempty)

theorem initArray : C.Gives (g.initArray e) s := by
  refine hC.typeOperand he fun element helement => ?_
  have hone (a) (ha : a ∈ e.arguments) (s) : C.Gives (do g.copy (← g.expecting a element)) s := by
    refine hC.bind (hC.expecting (hC.lowers he ha) helement) fun s' value _ hvalue => ?_
    exact hC.reading _ (fun _ => rfl) (hC.pure (hC.copied hvalue))
  refine hC.bind (hC.eachValue hone) fun s' elements _ helements => ?_
  exact hC.pure (hC.general rfl (Nat.zero_le _) (by simpa using helement) helements.2)

theorem arrayLength : C.Gives (g.arrayLength e) s := by
  have hint : C.types g.core.int32 := C.lexicon.int32
  refine hC.operand he hC.expression fun s' array _ harray => ?_
  exact hC.pure (hC.around rfl (Nat.zero_le _) (by simpa using hint) harray)

theorem elementPlace {stop : Nat} :
    C.Meets (g.elementPlace e stop) s fun s' place =>
      (∀ o ∈ place.array :: place.indices, C.Value s' [] o) ∧ place.indices ≠ []
        ∧ C.types place.element := by
  refine hC.operand he hC.expression fun s₁ array _ harray => ?_
  have hindex (a) (ha : a ∈ (e.arguments.take stop).drop 1) (s) : C.Gives (g.expression a) s :=
    hC.expression (hC.lowers he (List.mem_of_mem_take (List.mem_of_mem_drop ha)))
  refine hC.bind (hC.eachValue hindex) fun s₂ indices h₂ hindices => ?_
  split
  · exact hC.throw rfl
  · next hnonempty =>
    have harray := hC.value_later h₂ harray
    have hplace := List.forall_mem_cons.mpr ⟨harray, hindices.2⟩
    have hnonempty : indices ≠ [] := by simpa using hnonempty
    split
    · next element htype => exact hC.pure ⟨hplace, hnonempty, hC.types_type? he htype⟩
    · refine hC.typeOf (hC.part harray) fun type htype => ?_
      split
      · next element helement =>
        exact hC.pure ⟨hplace, hnonempty, C.lexicon.element htype helement⟩
      · exact hC.throw rfl

end

/-- An element is a value. -/
theorem element {place : Lowerer.ElementPlace}
    (hplace : ∀ o ∈ place.array :: place.indices, C.Value s [] o) (hindices : place.indices ≠ [])
    (helement : C.types place.element) :
    C.Value s [] (.elementAccess place.element place.array place.indices) :=
  hC.elementAccess helement hindices fun o ho => hC.part (hplace o ho)

section

variable (he : C.Applies e)
include he

theorem loadElement : C.Gives (g.loadElement e) s :=
  hC.bind (hC.elementPlace he) fun _ _ _ h => hC.pure (hC.element h.1 h.2.1 h.2.2)

theorem storeElement : C.Gives (g.storeElement e) s := by
  unfold Lowerer.storeElement
  split
  · exact hC.throw rfl
  · refine hC.bind (hC.elementPlace he) fun s₁ place _ hplace => ?_
    obtain ⟨hoperands, hindices, helement⟩ := hplace
    refine hC.operand he (hC.expecting · helement) fun s₂ value h₂ hvalue => ?_
    refine hC.copy hvalue fun copy hcopy => hC.store ?_ hcopy
    exact hC.element (fun o ho => hC.value_later h₂ (hoperands o ho)) hindices helement

theorem elementAddress : C.Gives (g.elementAddress e) s := by
  refine hC.bind (hC.elementPlace he) fun s' place _ hplace => ?_
  obtain ⟨hoperands, hindices, helement⟩ := hplace
  refine hC.pure (hC.general rfl ?_ (by simpa using helement) hoperands)
  exact Nat.succ_le_succ (List.length_pos_iff.mpr hindices)

/-! ### Addresses -/

theorem loadIndirect : C.Gives (g.loadIndirect e) s := by
  refine hC.operand he hC.raw fun s' address _ haddress => ?_
  refine hC.typeOf (hC.part haddress) fun type htype => ?_
  split
  · exact hC.referentType he htype fun element helement =>
      hC.pure (hC.pointerRead helement haddress)
  · exact hC.fitting fun hs => hC.reading _ (fun _ => rfl) (hC.pure (hC.locationOf hs haddress))

theorem storeIndirect : C.Gives (g.storeIndirect e) s := by
  refine hC.operand he hC.raw fun s₁ address _ haddress => ?_
  refine hC.typeOf (hC.part haddress) fun type htype => ?_
  refine hC.referentType he htype fun element helement => ?_
  refine hC.operand he (hC.expecting · helement) fun s₂ value h₂ hvalue => ?_
  refine hC.copy hvalue fun copy hcopy => ?_
  exact hC.storeThrough helement (hC.value_later h₂ haddress) hcopy

theorem initObject : C.Gives (g.initObject e) s := by
  refine hC.typeOperand he fun type htype => ?_
  refine hC.operand he hC.raw fun s' address _ haddress => ?_
  exact hC.storeThrough htype haddress (hC.literal rfl (by simpa using htype))

theorem copyObject : C.Gives (g.copyObject e) s := by
  refine hC.typeOperand he fun type htype => ?_
  refine hC.operand he hC.raw fun s₁ destination _ hdestination => ?_
  refine hC.operand he hC.raw fun s₂ source h₂ hsource => ?_
  refine hC.location hsource fun place hplace => ?_
  refine hC.copy hplace fun copy hcopy => ?_
  exact hC.storeThrough htype (hC.value_later h₂ hdestination) hcopy

theorem addressOf : C.Gives (g.addressOf e) s := by
  refine hC.operand he hC.raw fun s₁ n _ hn => ?_
  have hvalue := hC.uncopied hn
  simp only
  split
  · next hlocation => exact hC.make (hC.takeReference hvalue hlocation)
  · refine hC.typeOf (hC.part hvalue) fun type htype => ?_
    refine hC.bind (hC.newTemporary htype) fun s₂ temporary h₂ htemporary => ?_
    obtain ⟨v, hv, rfl⟩ := htemporary
    refine hC.bind (hC.keep hv (hC.part (hC.value_later h₂ hvalue))) fun s₃ spill h₃ hspill => ?_
    obtain ⟨hspill, t, rfl⟩ := hspill
    have hv : C.Value s₃ [v] (.ofVariable v) :=
      hC.temporary (hC.temporary_later h₃ hv) (List.mem_singleton_self v)
    have hmake : C.Meets (Lower.ofExcept (Node.takeReference (.ofVariable v))) s₃
        fun s' r => C.Value s' [] (afterPrelude [.binary .assign (.ofVariable v) _ t] r) :=
      hC.make (hC.afterPrelude (List.forall_mem_singleton.mpr hspill) (hC.takeReference hv rfl))
    exact hC.bind hmake fun _ _ _ h => hC.pure h

/-! ### Updates -/

theorem compoundAssignment : C.Gives (g.compoundAssignment e) s := by
  refine hC.argument he fun operation hoperation => ?_
  have hoperation := hC.applies hoperation
  split
  · exact hC.throw rfl
  · next op _ =>
    refine hC.argument hoperation fun load hload => ?_
    split
    · exact hC.throw rfl
    · refine hC.bind (hC.raw hload) fun s₁ place _ hplace => ?_
      refine hC.bind (hC.hoistIndices hplace) fun s₂ hoisted _ hhoisted => ?_
      obtain ⟨hprelude, htarget, -⟩ := hhoisted
      refine hC.typeOf (hC.part htarget) fun type htype => ?_
      refine hC.argument hoperation fun valueExpr hvalueExpr => ?_
      have hassign : ∀ (s₃ : State) (value : Node), C.Later s₂ s₃ → C.Value s₃ [] value →
          C.Gives (do
            let assignment ← g.compoundAssign op hoisted.2 value
            return afterPrelude hoisted.1 assignment) s₃ := by
        intro s₃ value h₃ hvalue
        refine hC.updated ?_ (hC.value_later h₃ htarget) (hC.part (hC.weaken hvalue))
        exact fun p hp => hC.value_later h₃ (hprelude p hp)
      dsimp only
      split
      · exact hC.bind (hC.expression hvalueExpr) hassign
      · exact hC.bind (hC.expecting hvalueExpr htype) hassign

end

theorem incrementBy {type : Ty} {delta : Int64} (htarget : C.Value s vs target)
    (htype : C.types type) (hdelta : ∀ s, C.Value s vs (.integer g.core (deltaKind type) delta)) :
    C.Meets (g.incrementBy target type delta) s fun s' n => C.Value s' vs n := by
  refine hC.bind (hC.newTemporary htype) fun s₁ old h₁ hold => ?_
  obtain ⟨v, hv, rfl⟩ := hold
  have htarget := hC.value_later h₁ htarget
  refine hC.bind (hC.keep hv (hC.part htarget)) fun s₂ keep h₂ hkeep => ?_
  obtain ⟨hkeep, t, rfl⟩ := hkeep
  have hv := hC.temporary_later h₂ hv
  have htarget := hC.value_later h₂ htarget
  have hupdate : C.Meets
      (g.compoundAssign .addAssign target (.integer g.core (deltaKind type) delta)) s₂
      fun s' n => C.Value s' vs n :=
    hC.compoundAssign (fun hs => hC.computedType hs (hC.part htarget)) fun t ht hlocation =>
      hC.assignment (hC.part htarget) (hC.part (hdelta s₂)) hlocation ht
  refine hC.bind hupdate fun s₃ update h₃ hupdate => hC.pure ?_
  have hprelude := List.forall_mem_cons.mpr
    ⟨hC.value_later h₃ hkeep, List.forall_mem_singleton.mpr hupdate⟩
  exact hC.afterPrelude hprelude
    (hC.temporary (hC.temporary_later h₃ hv) List.mem_cons_self)

theorem postIncrement (he : C.Applies e) (hcode : e.code = .postIncrement) :
    C.Gives (g.postIncrement e) s := by
  unfold Lowerer.postIncrement
  split
  · exact hC.throw rfl
  · next delta hdelta =>
    refine hC.operand he hC.receiver fun s₁ place _ hplace => ?_
    refine .ite (fun _ => hC.throw rfl) fun hlocation => ?_
    refine hC.bind (hC.hoistIndices hplace.1) fun s₂ hoisted _ hhoisted => ?_
    obtain ⟨hprelude, htarget, hkept⟩ := hhoisted
    have hlocation : hoisted.2.isLocation = true := hkept (by simpa using hlocation)
    refine hC.typeOf (hC.part htarget) fun type htype => ?_
    have hreturn : ∀ (s₃ : State) (increment : Node), C.Later s₂ s₃ →
        C.Value s₃ (assignedVariables hoisted.1) increment →
        C.Gives (return afterPrelude hoisted.1 increment) s₃ := by
      intro s₃ increment h₃ hincrement
      refine hC.pure (hC.afterPrelude (fun p hp => hC.value_later h₃ (hprelude p hp)) ?_)
      rwa [List.append_nil]
    have hunary (op : UnaryOp) :
        C.Value s₂ (assignedVariables hoisted.1) (.unary op hoisted.2 type) :=
      hC.update htarget hlocation htype
    dsimp only
    -- Only an increment by another amount than one writes a constant.
    split
    · exact hC.bind (hC.pure (hunary .postIncrement)) hreturn
    · next hone =>
      split
      · exact hC.bind (hC.pure (hunary .postDecrement)) hreturn
      · next hminus =>
        refine hC.bind (hC.incrementBy htarget htype fun s => ?_) hreturn
        exact hC.amount he hcode hdelta hone hminus (isIntegral_deltaKind _)

end Criterion.Closed

end Lowering

end ScriptLowering
