import ScriptLowering.Proofs.Lowering.Storage

/-!
# Calls yield values

Calls and object creation yield values by every criterion that is closed, whichever of their forms
they take. An invocation follows the convention of its method: a receiver of a value type and the
arguments for reference parameters are required to be references, and the dispatch is chosen from
the method, the instruction and the receiver (`convention_dispatchOf`).
-/

namespace ScriptLowering.Lowering

open Script

theorem Lexicon.result {env : Env} (L : Lexicon env) {m : Method} (hm : L.methods m)
    {creates : Prop} [Decidable creates] :
    L.types (if creates then m.declaringType else m.returnType) :=
  L.ite (L.signature hm _ (by simp [Method.types])) (L.signature hm _ (by simp [Method.types]))

variable {receiver : Node} {arguments : List Node}

theorem convention_dispatchOf {h : Hierarchy} {caller : Ty} {code : Cil.Opcode} {m : Method}
    {explicitThis : Bool} {dispatch : Dispatch}
    (hdispatch : dispatch = dispatchOf h caller code m receiver)
    (hempty : m.isStatic = true → receiver.isEmpty = true)
    (hexplicit : m.isStatic = false → m.declaringType.isValueType = true → explicitThis = true)
    (hpassing : ∀ (i : Nat) (a : Node) (p : MethodParameter), arguments[i]? = some a →
      m.parameters[i]? = some p → a.form.isPassing = p.type.isByRef) :
    Convention m dispatch (explicitThis || dispatch = .base) receiver arguments := by
  -- What each choice says about the method and the receiver.
  have hchoice : (dispatch = .static ↔ m.isStatic = true)
      ∧ (dispatch = .base → isOwnReceiver receiver = true) := by
    rw [hdispatch]
    unfold dispatchOf
    split_ifs with hstatic _ _ _ _ hbase
    · exact ⟨iff_of_true rfl hstatic, nofun⟩
    all_goals refine ⟨iff_of_false nofun hstatic, ?_⟩
    on_goal 5 =>
      -- The base class is called under a condition that includes the own receiver.
      intro _
      rw [Bool.and_eq_true, Bool.and_eq_true] at hbase
      exact hbase.1.2
    all_goals exact nofun
  refine ⟨hchoice.1, hempty, hpassing, fun hinstance hvalue => ?_, fun hbase => ⟨?_, ?_⟩⟩
  · rw [hexplicit hinstance hvalue, Bool.true_or]
  · simp [hbase]
  · exact hchoice.2 hbase

namespace Criterion.Closed

variable {g : Lowerer} {C : Criterion g} (hC : C.Closed) {s : State} {e : Cil.Expr} {m : Method}
  {n : Node}
include hC

/-! ### Receivers and arguments -/

theorem callReceiver (he : C.Lowers e) :
    C.Meets (g.callReceiver e m) s fun s' receiver => C.Value s' [] receiver.1
      ∧ (m.declaringType.isValueType = true → receiver.2 = true) := by
  refine hC.bind (hC.raw he) fun s' n _ hn => ?_
  refine .ite (fun _ => ?_) fun hvalue => hC.pure ⟨hn, fun hvalue' => absurd hvalue' hvalue⟩
  refine hC.requireReference fun _ => ?_
  exact hC.location hn fun place hplace => hC.pure ⟨hplace, fun _ => rfl⟩

theorem callArgument {p : MethodParameter} (hp : C.types p.type) (he : C.Lowers e) :
    C.Meets (g.callArgument m p e) s fun s' a =>
      C.Passed s' a ∧ (C.Strict → a.form.isPassing = p.type.isByRef) := by
  refine .ite (fun hbyRef => ?_) fun hbyRef => ?_
  · refine hC.bind (hC.raw he) fun s' n _ hn => ?_
    refine hC.requireReference fun href => ?_
    exact hC.make ⟨hC.passByReference hn href, fun _ => hbyRef.symm⟩
  · refine hC.bind (hC.expecting he hp) fun s' n _ hn => ?_
    have hcopy := hC.copied (c := g.core) (r := s'.context.scope.retyping) hn
    refine hC.reading _ (fun _ => rfl) (hC.pure ⟨hC.passed hcopy, fun hstrict => ?_⟩)
    rw [hC.plain hstrict hcopy]
    exact (Bool.eq_false_iff.mpr hbyRef).symm

theorem callArguments :
    ∀ {parameters : List MethodParameter} {es : List Cil.Expr} {s : State},
      (∀ p ∈ parameters, C.types p.type) → (∀ a ∈ es, C.Lowers a) →
      C.Meets (g.callArguments m parameters es) s fun s' arguments =>
        (∀ a ∈ arguments, C.Passed s' a)
          ∧ (C.Strict → ∀ (i : Nat) (a : Node) (p : MethodParameter), arguments[i]? = some a →
              parameters[i]? = some p → a.form.isPassing = p.type.isByRef)
  | parameters, [], s, _, _ => by
    unfold Lowerer.callArguments
    exact hC.pure ⟨by simp, by simp⟩
  | [], e :: rest, s, hparameters, hes => by
    obtain ⟨he, hrest⟩ := List.forall_mem_cons.mp hes
    unfold Lowerer.callArguments
    refine hC.bind (hC.expression he) fun s₁ n _ hn => ?_
    refine hC.bind (callArguments hparameters hrest) fun s₂ ns h₂ hns => ?_
    exact hC.pure ⟨List.forall_mem_cons.mpr ⟨hC.passed_later h₂ (hC.passed hn), hns.1⟩, by simp⟩
  | p :: parameters, e :: rest, s, hparameters, hes => by
    obtain ⟨he, hrest⟩ := List.forall_mem_cons.mp hes
    obtain ⟨hp, hparameters⟩ := List.forall_mem_cons.mp hparameters
    unfold Lowerer.callArguments
    refine hC.bind (hC.callArgument hp he) fun s₁ n _ hn => ?_
    refine hC.bind (callArguments hparameters hrest) fun s₂ ns h₂ hns => ?_
    refine hC.pure ⟨List.forall_mem_cons.mpr ⟨hC.passed_later h₂ hn.1, hns.1⟩, ?_⟩
    intro hstrict i a q ha hq
    cases i with
    | zero =>
      cases ha
      cases hq
      exact hn.2 hstrict
    | succ i => exact hns.2 hstrict i a q ha hq

/-! ### Properties -/

theorem propertyAccess? (hm : C.lexicon.methods m) (hreceiver : C.Value s [] receiver)
    (harguments : ∀ a ∈ arguments, C.Passed s a) :
    C.Meets (g.propertyAccess? m receiver arguments) s fun s' n? =>
      ∀ n, n? = some n → C.Value s' [] n := by
  refine hC.bind (hC.propertyOf? hm) fun s₁ property? h₁ hproperty => ?_
  split
  · exact hC.pure (by simp)
  · next property =>
    have htarget : C.Gives (g.accessTarget m receiver) s₁ :=
      .ite (fun _ => hC.typeTarget (C.lexicon.signature hm _ (by simp [Method.types])))
        fun _ => hC.pure (hC.value_later h₁ hreceiver)
    refine hC.bind htarget fun s₂ target h₂ htarget => ?_
    have haccess {indices : List Node} (hindices : indices ⊆ arguments) :
        C.Value s₂ [] (.propertyAccess property target indices) :=
      hC.propertyAccess (hproperty property rfl) htarget
        fun i hi => hC.passed_later (hC.trans h₁ h₂) (harguments i (hindices hi))
    refine .ite (fun _ => hC.pure ?_) fun _ => ?_
    · rintro n ⟨⟩
      exact haccess (List.Subset.refl _)
    · -- The last argument of a setter is the value, the others are indices.
      split
      · exact hC.pure (by simp)
      · next value hvalue =>
        have hindices := haccess (List.dropLast_subset arguments)
        have hvalue := hC.passed_later (hC.trans h₁ h₂)
          (harguments value (List.mem_of_getLast? hvalue))
        have hassign : C.Gives (g.assign _ value) s₂ :=
          hC.compoundAssign (fun hs => hC.computedType hs (hC.part hindices))
            fun t ht hlocation => hC.assignPassed hindices hvalue hlocation ht
        refine hC.bind hassign fun s₃ access _ haccess => hC.pure ?_
        rintro n ⟨⟩
        exact haccess

theorem accessorForm? (hm : C.lexicon.methods m) {dispatch : Dispatch}
    (hreceiver : C.Value s [] receiver) (harguments : ∀ a ∈ arguments, C.Passed s a) :
    C.Meets (g.accessorForm? m dispatch receiver arguments) s fun s' n? =>
      ∀ n, n? = some n → C.Value s' [] n :=
  .ite (fun _ => hC.pure (by simp)) fun _ => hC.propertyAccess? hm hreceiver harguments

/-! ### Calls -/

theorem ignoredCall (hm : C.lexicon.methods m) : C.Value s [] (ignoredCall m) :=
  hC.leaf rfl rfl (by simpa using C.lexicon.result hm)

variable (he : C.Applies e)
include he

/-- A type constant in place of a call. -/
theorem typeFromHandle? (h : typeFromHandle? m e.arguments = some n) : C.Value s [] n := by
  unfold Lowering.typeFromHandle? at h
  split at h
  · split at h <;> cases h
    next t _ _ _ _ hhead =>
    have htype : C.types t := ((hC.covers he).argument (List.mem_of_head? hhead)).type rfl
    exact hC.literal rfl (by simpa using htype)
  · cases h

theorem replaced (hm : C.lexicon.methods m) {text : String} : C.Gives (g.replaced e m text) s := by
  have hargument (names : List String) (a) (ha : a ∈ e.arguments.take names.length) (s) :
      C.Gives (g.expression a) s :=
    hC.expression (hC.lowers he (List.mem_of_mem_take ha))
  refine hC.bind (hC.eachValue (hargument _)) fun s' operands _ hoperands => hC.pure ?_
  refine hC.general rfl ?_ (by simpa using C.lexicon.result hm) hoperands.2
  -- As many names are bound as there are operands.
  have hlength := hoperands.1
  rw [List.length_take] at hlength
  change operands.length = (List.take _ _).length
  rw [List.length_take]
  omega

theorem call_invocation (hm : C.lexicon.methods m) {packsResult : Bool} :
    C.Gives (g.invocation e m packsResult) s := by
  have hsignature := C.lexicon.signature hm
  have hparameters : ∀ p ∈ m.parameters, C.types p.type :=
    fun p hp => hsignature _ (Method.parameter_mem_types hp)
  unfold Lowerer.invocation
  extract_lets rest
  -- The same happens with a receiver and without one.
  have hrest : ∀ (s₁ : State) (receiver : Node × Bool), C.Value s₁ [] receiver.1 →
      (m.isStatic = true → receiver.1.isEmpty = true) →
      (m.isStatic = false → m.declaringType.isValueType = true → receiver.2 = true) →
      C.Gives (rest receiver) s₁ := by
    rintro s₁ ⟨receiver, explicitThis⟩ hreceiver hempty hexplicit
    have hes : ∀ a ∈ e.arguments.drop (if m.isStatic then 0 else 1), C.Lowers a :=
      fun a ha => hC.lowers he (List.mem_of_mem_drop ha)
    refine hC.bind (hC.callArguments hparameters hes) fun s₂ arguments h₂ harguments => ?_
    obtain ⟨harguments, hpassing⟩ := harguments
    have hreceiver := hC.value_later h₂ hreceiver
    extract_lets dispatch node
    have hnode : C.Value s₂ [] node := by
      refine hC.invocation hsignature (fun hstrict => ?_) hreceiver harguments
      exact convention_dispatchOf rfl hempty hexplicit (hpassing hstrict)
    refine hC.bind (hC.earlyForm? hnode) fun s₃ form? h₃ hform => ?_
    split
    · exact hC.pure (hform _ rfl)
    · refine hC.bind (hC.accessorForm? hm (hC.value_later h₃ hreceiver)
        fun a ha => hC.passed_later h₃ (harguments a ha)) fun s₄ access? h₄ haccess => ?_
      split
      · exact hC.pure (haccess _ rfl)
      · have hnode := hC.value_later (hC.trans h₃ h₄) hnode
        refine hC.pure ?_
        split
        · exact hC.packed (hsignature _ (by simp [Method.types])) hnode
        · exact hnode
  refine .ite (fun hstatic => ?_) fun hinstance => ?_
  · refine hrest s (.empty, false) (hC.leaf rfl rfl (by simp)) (fun _ => rfl) fun hinstance => ?_
    rw [hstatic] at hinstance
    cases hinstance
  · refine hC.operand he hC.callReceiver fun s₁ receiver _ hreceiver => ?_
    exact hrest s₁ receiver hreceiver.1 (fun hstatic => absurd hstatic hinstance)
      fun _ => hreceiver.2

theorem call : C.Gives (g.call e) s := by
  refine hC.methodOperand he fun called hcalled => ?_
  refine hC.bind (hC.methodDirective? hcalled) fun _ directive? _ hproxy => ?_
  split
  · exact hC.replaced he hcalled.1
  · refine hC.bind (hC.asks (.ignores called)) fun _ ignored _ _ => ?_
    refine .ite (fun _ => hC.pure (hC.ignoredCall hcalled.1)) fun _ => ?_
    simp only
    split
    · next hconstant => exact hC.pure (hC.typeFromHandle? he hconstant)
    · exact hC.call_invocation he hproxy

theorem create : C.Gives (g.newObject e) s := by
  refine hC.methodOperand he fun called hcalled => ?_
  refine hC.bind (hC.methodDirective? hcalled) fun _ directive? _ hproxy => ?_
  split
  · exact hC.replaced he hcalled.1
  · refine hC.bind (hC.asks (.ignores called)) fun _ ignored _ _ => ?_
    refine .ite (fun _ => hC.pure (hC.ignoredCall hcalled.1)) fun _ => ?_
    have hsignature := C.lexicon.signature hproxy
    generalize (directive?.bind (·.proxy?)).getD called = constructor at hsignature ⊢
    have hparameters : ∀ p ∈ constructor.parameters, C.types p.type :=
      fun p hp => hsignature _ (Method.parameter_mem_types hp)
    refine hC.bind (hC.callArguments hparameters fun a ha => hC.lowers he ha)
      fun s₁ arguments _ harguments => ?_
    have hnode := hC.newObject hsignature harguments.1
    refine hC.bind (hC.earlyForm? hnode) fun s₂ form? h₂ hform => hC.pure ?_
    cases form? with
    | none => exact hC.value_later h₂ hnode
    | some form => exact hform form rfl

theorem methodPointer : C.Gives (g.methodPointer e) s := by
  refine hC.methodOperand he fun m hm => ?_
  exact hC.pure (hC.leaf rfl rfl (C.lexicon.signature hm.1))

theorem virtualMethodPointer : C.Gives (g.virtualMethodPointer e) s := by
  have hnative : C.types g.core.nativeInt := C.lexicon.nativeInt
  refine hC.methodOperand he fun m hm => hC.argument he fun a ha => ?_
  refine hC.bind (hC.expression ha) fun s' target _ htarget => ?_
  exact hC.pure (hC.pair rfl (Nat.zero_le _) (by simpa using hnative) htarget
    (hC.leaf rfl rfl (C.lexicon.signature hm.1)))

end Criterion.Closed

end ScriptLowering.Lowering
