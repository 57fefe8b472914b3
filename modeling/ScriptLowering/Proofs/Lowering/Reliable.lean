import ScriptLowering.Proofs.Canonical.Intrinsic
import ScriptLowering.Proofs.Lowering.Ensures
import ScriptLowering.Proofs.Lowering.Lifting
import ScriptLowering.Proofs.Lowering.Rule

/-!
# Lowering yields expressions

Lowering an expression yields a value of the state that it leads to, provided the lowering of
subexpressions does (`Lowerer.Reliable`): the criterion `Lowerer.expressions` is closed. By
induction on the levels that are left, the lowering of every expression does so
(`reliable_ofMethod`).
-/

namespace ScriptLowering

/-! ### Properties of accessors -/

theorem Method.isOneSided_of_accessedProperty? {m : Method} {p : Property}
    (h : m.accessedProperty? = some p) : p.IsOneSided := by
  unfold accessedProperty? at h
  split at h
  · split at h
    · cases h
      exact .inr rfl
    · -- A setter: the type of the property is that of the last parameter.
      simp only [Option.bind_eq_bind, Option.bind_eq_some_iff] at h
      obtain ⟨name, -, value, -, h⟩ := h
      cases h
      exact .inl rfl
  · cases h

theorem Directives.isOneSided_of_property? {d : Directives} {m : Method} {p : Property}
    (hd : d.properties = []) (h : d.property? m = some p) : p.IsOneSided := by
  unfold property? lookupLast at h
  rw [hd] at h
  simp only [List.reverse_nil, List.lookup_nil] at h
  split at h
  · exact Method.isOneSided_of_accessedProperty? h
  · cases h

theorem MemberMemo.OneSided.property? {memo : MemberMemo} {d : Directives} (h : memo.OneSided)
    (hd : d.properties = []) (m : Method) :
    (∀ p, (memo.property? d m).1 = some p → p.IsOneSided) ∧ (memo.property? d m).2.OneSided := by
  unfold MemberMemo.property? remember
  cases hlookup : memo.properties.lookup m.fullName with
  | some answer =>
    refine ⟨fun p hp => ?_, h⟩
    obtain ⟨before, after, hentries, -⟩ := List.lookup_eq_some_iff.mp hlookup
    exact h (m.fullName, answer) (by simp [hentries]) p hp
  | none =>
    refine ⟨fun p hp => Directives.isOneSided_of_property? hd hp, ?_⟩
    intro entry hentry p hp
    rcases List.mem_cons.mp hentry with rfl | hold
    · exact Directives.isOneSided_of_property? hd hp
    · exact h entry hold p hp

namespace Lowering

open Script

/-- Lowering of subexpressions that yields values, and remembers only properties with one accessor
where properties are derived. -/
structure Lowerer.Reliable (derived : Prop) (g : Lowerer) : Prop where
  derives : derived → g.env.directives.properties = []
  raw : ∀ e s, Ensures derived (g.raw e) s (ValueIn derived)

variable {derived : Prop} {s : State} {g : Lowerer} {e : Cil.Expr}

/-! ### Values -/

variable {n : Node} {operands : List Node}

/-- A general form over values is a value. -/
theorem ValueIn.general {form : Form} (hform : form.isGeneral = true)
    (hslots : form.Takes operands.length) (h : ∀ o ∈ operands, ValueIn derived s o) :
    ValueIn derived s ⟨form, operands⟩ := by
  have hoperands : ∀ o ∈ operands, ExpressionIn derived s o := fun o ho => (h o ho).expression
  have hmutating : form.assigns = false := by
    cases form <;> first | rfl | simpa [Form.isGeneral, Form.assigns] using hform
  have hdemands (hd : derived) (o : Node) (ho : o ∈ operands) : form.Demands o := by
    have hplain := (h o ho).plain hd
    cases form <;> first | exact trivial | exact hplain | cases hform
  refine ⟨Node.isExpression_mk.mpr ⟨?_, hslots, fun hd => ⟨hslots, ?_, hdemands hd, ?_⟩, ?_, ?_,
    hoperands⟩, fun _ => ?_⟩
  · cases form <;> first | rfl | cases hform
  · intro hassigns
    rw [hmutating] at hassigns
    cases hassigns
  · intro p hp
    obtain rfl : form = .propertyAccess p := hp
    cases hform
  · have hnone : Canonical.mentioned? ⟨form, operands⟩ = none := by
      cases form <;> first | rfl | cases hform
    simp [hnone]
  · cases form <;> first | exact trivial | cases hform
  · cases form <;> first | rfl | cases hform

/-- A loose form over expressions is a value. -/
theorem ValueIn.loose {form : Form} (hform : form.isLoose = true)
    (hslots : form.Takes operands.length) (h : ∀ o ∈ operands, ExpressionIn derived s o) :
    ValueIn derived s ⟨form, operands⟩ := by
  cases form with
  | binary op type =>
    obtain ⟨left, right, rfl⟩ := List.length_eq_two.mp hslots
    have hop : op.isAssignment = false := by simpa [Form.isLoose] using hform
    exact ⟨Node.isExpression_operation hop (h _ (by simp)) (h _ (by simp)), fun _ => rfl⟩
  | pointerAdd | pointerRead | pointerWrite | asCast | typeTest | elementAccess =>
    exact .ofPlain rfl hslots h
  | _ => cases hform

theorem isExpression_firstOperand (hn : ExpressionIn derived s n) :
    ExpressionIn derived s (firstOperand n) := by
  unfold firstOperand
  cases ho : n.operands.head? with
  | none => exact Node.isExpression_empty
  | some o => exact hn.operand (List.mem_of_head? ho)

theorem plain_of_isLocation (h : n.isLocation = true) :
    n.form.mayBeMember = false ∧ n.form.isPassing = false := by
  unfold Node.isLocation at h
  cases hform : n.form <;> rw [hform] at h <;>
    first | exact ⟨rfl, rfl⟩ | cases h

theorem isLocation_firstOperand (h : Node.Sound ⟨.takeReference, operands⟩) :
    (firstOperand ⟨.takeReference, operands⟩).isLocation = true := by
  have hslots : operands.length = 1 := h.slots
  obtain ⟨o, rfl⟩ := List.length_eq_one_iff.mp hslots
  exact h.operands o List.mem_cons_self

theorem ValueIn.located {c : Core} {r : Retyping} {location : Node} (h : Located c r n location)
    (hn : ValueIn derived s n) :
    ValueIn derived s location ∧ (derived → location.form.mayBeMember = false) := by
  have hfirst := isExpression_firstOperand hn.expression
  cases h with
  | taken =>
    -- The location that a reference was taken of.
    have hlocation := fun hd : derived => isLocation_firstOperand (hn.expression.sound hd)
    exact ⟨⟨hfirst, fun hd => (plain_of_isLocation (hlocation hd)).2⟩,
      fun hd => (plain_of_isLocation (hlocation hd)).1⟩
  | member => exact ⟨⟨Node.isExpression_fieldAccess.mpr hfirst, fun _ => rfl⟩, fun _ => rfl⟩
  | @element _ operands =>
    refine ⟨⟨Node.isExpression_elementAccess.mpr ⟨?_, hfirst, ?_⟩, fun _ => rfl⟩, fun _ => rfl⟩
    · intro htail
      have hslots : 2 ≤ operands.length := hn.expression.slots
      have htailLength : operands.tail.length = ([] : List Node).length :=
        congrArg List.length htail
      rw [List.length_tail, List.length_nil] at htailLength
      omega
    · exact fun i hi => hn.expression.operand (List.mem_of_mem_tail hi)
  | declared | referent =>
    exact ⟨⟨Node.isExpression_dereference.mpr hn.expression, fun _ => rfl⟩, fun _ => rfl⟩
  | result => exact ⟨.ofPlain rfl rfl (by simpa using hn.expression), fun _ => rfl⟩
  | slot => exact ⟨hn, fun _ => rfl⟩
  | itself hplain =>
    -- What is left as it is has no reference type, so it is no member reference.
    refine ⟨hn, fun _ => Bool.eq_false_iff.mpr fun h => ?_⟩
    rw [Node.isByRef_of_mayBeMember h c r] at hplain
    cases hplain

/-- The value under a copy is a value. -/
theorem ValueIn.uncopied (hn : ValueIn derived s n) : ValueIn derived s (Lowerer.uncopied n) := by
  obtain ⟨form, operands⟩ := n
  unfold Lowerer.uncopied
  split
  · next hform =>
    obtain rfl : form = .structCopy := hform
    refine ⟨isExpression_firstOperand hn.expression, fun hd => ?_⟩
    have hsound := hn.expression.sound hd
    obtain ⟨o, rfl⟩ := List.length_eq_one_iff.mp (hsound.slots : operands.length = 1)
    exact hsound.operands o List.mem_cons_self
  · exact hn

/-- A value after others is a value. -/
theorem ValueIn.afterPrelude {prelude : List Node} (hprelude : ∀ m ∈ prelude, ValueIn derived s m)
    (hn : ValueIn derived s n) : ValueIn derived s (afterPrelude prelude n) := by
  have hall : ∀ m ∈ prelude ++ [n], ValueIn derived s m :=
    List.forall_mem_append.mpr ⟨hprelude, List.forall_mem_singleton.mpr hn⟩
  refine ⟨Node.isExpression_comma fun m hm => (hall m hm).expression, ?_⟩
  unfold Lowering.afterPrelude
  generalize prelude ++ [n] = ns at hall ⊢
  unfold Node.comma
  split
  · exact (hall _ List.mem_cons_self).plain
  · exact fun _ => rfl

/-- The negation of a value is a value. -/
theorem ValueIn.logicalNot (hn : ValueIn derived s n) (c : Core) :
    ValueIn derived s (.logicalNot c n) := by
  unfold Node.logicalNot
  split
  · next type inner rest =>
    -- A double negation: the operand of the inner one passes no argument.
    refine ⟨hn.expression.operand List.mem_cons_self, fun hd => ?_⟩
    exact (hn.expression.sound hd).operands inner List.mem_cons_self
  · exact isValue_literal
  · exact .general rfl rfl (List.forall_mem_singleton.mpr hn)

/-! ### Aims of jumps -/

theorem breakTarget?_aims {c : Context} {target? : Option Nat}
    (h : c.breakTarget? = some target?) : (Form.breakOut target?).Aims c.around := by
  unfold Context.breakTarget? at h
  unfold Context.around
  generalize c.targets = targets at h ⊢
  induction targets with
  | nil => cases h
  | cons target targets ih =>
    cases target with
    | loop index =>
      cases h
      rfl
    | switch =>
      cases h
      rfl
    | region => exact ih h -- Jumps pass through a region.

theorem continueTarget?_aims {c : Context} {index : Nat} (h : c.continueTarget? = some index) :
    (Form.continueLoop (some index)).Aims c.around := by
  unfold Context.continueTarget? at h
  unfold Context.around
  generalize c.targets = targets at h ⊢
  induction targets with
  | nil => cases h
  | cons target targets ih =>
    cases target with
    | loop index =>
      cases h
      rfl
    | switch => exact ih h
    | region => exact ih h

namespace Lowerer

/-! ### The criterion -/

theorem ensures_asks {α : Type} {ask : MemberMemo → α × MemberMemo} {answer : α}
    (hask : MemberMemo.Asks g.env.directives ask answer) :
    Ensures derived (Lower.askMembers ask) s (fun _ _ => True) := by
  intro hs
  refine ⟨⟨fun hd entry hentry => ?_, rfl, Scope.Grows.refl _, Nat.le_refl _⟩, trivial⟩
  exact hs hd entry (hask.properties _ ▸ hentry)

theorem Reliable.propertyOf? (hg : g.Reliable derived) {m : Method} :
    Ensures derived (g.propertyOf? m) s
      (fun _ p? => ∀ p, p? = some p → derived → p.IsOneSided) := by
  intro hs
  have hspec := fun hd : derived => (hs hd).property? (hg.derives hd) m
  refine ⟨⟨fun hd => (hspec hd).2, rfl, Scope.Grows.refl _, Nat.le_refl _⟩, ?_⟩
  exact fun p hp hd => (hspec hd).1 p hp

theorem ensures_earlyForm? {n : Node} (hn : ExpressionIn derived s n) :
    Ensures derived (g.earlyForm? n) s
      (fun s' r? => ∀ r, r? = some r → ValueIn derived s' r) := by
  refine .ite (fun _ => .reading _ rfl (.pure ?_)) fun _ => .pure (by simp)
  intro r hr
  have hspec := (Canonical.replaceCall?_spec hn hr).1
  exact ⟨hspec.expression, fun _ => hspec.passing⟩

/-- Values are expressions that are no arguments passed by reference, where properties are
derived. -/
def expressions (g : Lowerer) (derived : Prop) : Criterion g where
  lexicon := .all g.env
  Meets x s post := Ensures derived x s post
  Later := State.Advances
  Fits _ := True
  Lowers _ := True
  Applies _ := True
  Value s _ n := ValueIn derived s n
  Part s _ n := ExpressionIn derived s n
  Passed s n := ExpressionIn derived s n
  Own s v := v ∈ s.context.scope.allVariables
  Temporary s v := v ∈ s.context.scope.allVariables
  Accessed p := derived → p.IsOneSided
  Strict := False

theorem composes_expressions : (g.expressions derived).Composes where
  refl := .refl
  trans := .trans
  pure := .pure
  throw _ := .throw trivial
  bind := .bind
  fitting h := h trivial
  reading a hx hf := .reading a (hx _) hf
  withAutoCast := .withAutoCast

theorem lasts_expressions : (g.expressions derived).Lasts where
  value_later := .later
  part_later := later
  passed_later := later
  own_later h hv := h.scope.subset hv
  temporary_later h hv := h.scope.subset hv

theorem makes_expressions : (g.expressions derived).Makes where
  part := ValueIn.expression
  weaken hn := hn
  weakenPart hn _ := hn
  general hform hslots _ h := .general hform hslots h
  loose hform hslots _ h := .loose hform hslots h
  parts _ hn := ⟨fun _ _ => trivial, fun _ ho => hn.operand ho⟩
  literal _ _ := isValue_literal
  amount _ _ _ _ _ _ := isValue_literal
  own := isValue_ofVariable
  temporary hv _ := isValue_ofVariable hv
  assignTemporary hv hvalue _ := ⟨Node.isExpression_assignVariable hv hvalue, fun _ => rfl⟩
  assignment htarget hvalue hlocation _ :=
    ⟨Node.isExpression_binary.mpr ⟨fun _ _ => hlocation, htarget, hvalue⟩, fun _ => rfl⟩
  assignReferent haddress hvalue _ :=
    ⟨Node.isExpression_binary.mpr ⟨fun _ _ => rfl,
      Node.isExpression_dereference.mpr haddress.expression, hvalue.expression⟩, fun _ => rfl⟩
  update hn hlocation _ :=
    ⟨Node.isExpression_unary.mpr ⟨fun hd => ⟨fun _ => hlocation, hn.plain hd⟩, hn.expression⟩,
      fun _ => rfl⟩
  afterPrelude := .afterPrelude
  structCopy hn := ⟨Node.isExpression_structCopy.mpr ⟨hn.plain, hn.expression⟩, fun _ => rfl⟩
  uncopied := .uncopied
  takeReference hn hlocation :=
    ⟨Node.isExpression_takeReference.mpr ⟨fun _ => hlocation, hn.expression⟩, fun _ => rfl⟩
  locationOf _ hn := (hn.located (located_locationOf ..)).1
  memberReference _ hn _ :=
    have hlocation := hn.located (located_locationOf ..)
    ⟨Node.isExpression_memberReference.mpr ⟨hlocation.2, hlocation.1.expression⟩, fun _ => rfl⟩
  staticReference _ := by
    refine ⟨Node.isExpression_memberReference.mpr ?_, fun _ => rfl⟩
    unfold typeTargetUnder
    split <;> exact ⟨fun _ => rfl, (Node.isExpression_plain rfl).mpr ⟨rfl, by simp⟩⟩
  writeThrough haddress hvalue :=
    .ofPlain rfl rfl (by simp [haddress.expression, hvalue.expression])
  logicalNot hn := hn.logicalNot _
  nullableUnwrap hn _ := .ofPlain rfl rfl (by simp [hn.expression])
  breakOut h := ⟨Node.isExpression_breakOut.mpr (breakTarget?_aims h), fun _ => rfl⟩
  continueLoop h := ⟨Node.isExpression_continueLoop.mpr (continueTarget?_aims h), fun _ => rfl⟩

theorem lifting_expressions : (g.expressions derived).Lifting fun s m n =>
    ExpressionIn derived s m ∧ ExpressionIn derived s n ∧ m.form = n.form where
  toComposes := composes_expressions
  toLasts := lasts_expressions
  toMakes := makes_expressions
  newTemporary _ := .newTemporary
  computedType _ _ := trivial
  flat hn := hn
  like_later h hm := ⟨later h hm.1, later h hm.2.1, hm.2.2⟩
  operand h _ ho := ⟨h.1.operand ho, h.1.operand ho, rfl⟩
  congr h hms := by
    obtain ⟨hall, -⟩ := (List.forall₂_and_left _ _).mp hms
    have hstand := hms.imp fun _ _ hm => hm.1.standsFor hm.2.1 hm.2.2
    exact ⟨h.1.replace hstand hall, h.1, rfl⟩
  unwrapped h := h.1.operand List.mem_cons_self
  unwrap h hm := by
    refine ⟨(Node.isExpression_plain rfl).mpr ⟨h.1.slots, ?_⟩, h.1, rfl⟩
    exact List.forall_mem_cons.mpr ⟨hm, fun o ho => h.1.operand (List.mem_cons_of_mem _ ho)⟩
  ofValue hn := ⟨hn.expression, hn.expression, rfl⟩
  toValue hn hm := ⟨hm.1, fun hd => hm.2.2 ▸ hn.plain hd⟩

theorem Reliable.closed (hg : g.Reliable derived) : (g.expressions derived).Closed where
  toComposes := composes_expressions
  toLasts := lasts_expressions
  toMakes := makes_expressions
  raw _ := hg.raw _ _
  lowers _ _ := trivial
  applies _ := trivial
  covers _ := Lexicon.covers_all
  returns := trivial
  resolve _ _ := .resolve
  retype _ _ _ _ := (Ensures.modifyTable (Scope.grows_retype ..)).mono fun _ _ _ _ => trivial
  newTemporary _ := .newTemporary
  variableType _ _ := trivial
  computedType _ _ := trivial
  methodDirective? _ := (ensures_asks (.method ..)).mono fun _ _ _ _ => trivial
  asks hask := ensures_asks hask
  propertyOf? _ := hg.propertyOf?
  earlyForm? hn := ensures_earlyForm? hn.expression
  liftIn hn ht := lifting_expressions.gives hn ht
  unsupported hns := Ensures.warn.bind fun _ _ h _ =>
    .pure (.ofPlain rfl (Nat.zero_le _) fun o ho => later h (hns o ho).expression)
  passed := ValueIn.expression
  plain := False.elim
  passByReference hn _ := Node.isExpression_passByReference.mpr ⟨hn.plain, hn.expression⟩
  invocation _ _ hreceiver harguments :=
    ⟨Node.isExpression_invocation.mpr ⟨hreceiver.expression, harguments⟩, fun _ => rfl⟩
  newObject _ harguments := .ofPlain rfl (Nat.zero_le _) harguments
  propertyAccess hproperty htarget hindices :=
    ⟨Node.isExpression_propertyAccess.mpr ⟨hproperty, htarget.expression, hindices⟩, fun _ => rfl⟩
  assignPassed htarget hvalue hlocation _ :=
    ⟨Node.isExpression_binary.mpr ⟨fun _ _ => hlocation, htarget.expression, hvalue⟩, fun _ => rfl⟩

theorem Reliable.expression (hg : g.Reliable derived) :
    Ensures derived (g.expression e) s (ValueIn derived) :=
  hg.closed.expression trivial

theorem Reliable.uncast (hg : g.Reliable derived) :
    Ensures derived (g.uncast e) s (ValueIn derived) :=
  hg.closed.uncast trivial

end Lowerer

theorem ensures_lowerUpTo {env : Env} (hderives : derived → env.directives.properties = [])
    (method : Method) :
    ∀ (levels : Nat) (e : Cil.Expr) (s : State),
      Ensures derived (lowerUpTo env method levels e) s (ValueIn derived)
  | 0, _, _ => .throw trivial
  | levels + 1, _, _ =>
    have hg : Lowerer.Reliable derived ⟨env, method, lowerUpTo env method levels⟩ :=
      ⟨hderives, ensures_lowerUpTo hderives method levels⟩
    .oneLevelDown fun _ => hg.closed.apply_ruleOf trivial

theorem reliable_ofMethod {env : Env} (hderives : derived → env.directives.properties = [])
    (method : Method) : (Lowerer.ofMethod env method).Reliable derived :=
  ⟨hderives, ensures_lowerUpTo hderives method _⟩

end Lowering

end ScriptLowering
