import ScriptLowering.Proofs.Canonical.CallForm
import ScriptLowering.Proofs.Script.Counting
import ScriptLowering.Proofs.Script.Validity

/-!
# Which effects the form of a call keeps

A call that has a form of its own is taken apart, and the form is built from its operands. Not all
of them are used: the receiver of a static call, the target of a delegate of a static method that is
created in place, the lengths of a new array that is filled from a blob, and arguments that the
reader of a nullable value does not take are left out (`leftOut`).
-/

namespace ScriptLowering

open Script

variable {form : Form}

namespace Script

/-- The forms that only create an array or a delegate. -/
def Form.onlyCreates : Form → Bool
  | newArray .. => true
  | newObject _ type => type.isDelegate
  | _ => false

/-- The forms that call, assign, increment, write or throw. -/
def Form.acts (form : Form) : Bool :=
  form.hasEffect && !form.onlyCreates

theorem Form.hasEffect_of_acts (h : form.acts = true) : form.hasEffect = true :=
  (Bool.and_eq_true_iff.mp h).1

namespace Node

variable {m n : Node}

/-- A tree in which each node has the operands that its form takes. -/
def IsFilled (n : Node) : Prop :=
  ∀ k ∈ n.selfAndDescendants, k.form.Takes k.operands.length

theorem IsFilled.slots (h : n.IsFilled) : n.form.Takes n.operands.length := by
  obtain ⟨form, operands⟩ := n
  exact h _ (by rw [selfAndDescendants_mk]; exact List.mem_cons_self)

theorem IsFilled.operand {o : Node} (h : n.IsFilled) (ho : o ∈ n.operands) : o.IsFilled := by
  intro k hk
  obtain ⟨form, operands⟩ := n
  refine h k ?_
  rw [selfAndDescendants_mk]
  exact List.mem_cons_of_mem _ (List.mem_flatMap.mpr ⟨o, ho, hk⟩)

/-- A form that does not act is not counted. -/
theorem timesIn_of_not_acts (hacts : m.form.acts = true) {operands : List Node}
    (hform : form.acts = false) : m.timesIn [⟨form, operands⟩] = m.timesIn operands := by
  refine timesIn_mk ?_
  rintro rfl
  rw [hform] at hacts
  cases hacts

end Node

end Script

namespace Canonical

open Node

/-! ### What is left out -/

/-- The target of a delegate of a static method that is created in place. -/
def staticTarget (receiver : Node) : List Node :=
  match createdDelegate? receiver with
  | some (callee, target) => if callee.isStatic then [target] else []
  | none => []

/-- The lengths of a new array. -/
def lengthsOf (array : Node) : List Node :=
  match array.form with
  | .newArray .. => array.operands
  | _ => []

/-- The arguments that the reader of a nullable value does not take. -/
def unreadArguments (m : Method) (arguments : List Node) : List Node :=
  if m.name = "GetValueOrDefault" then arguments.tail else arguments

/-- The operands of a call that its form leaves out. -/
def leftOutOf (m : Method) (operands : List Node) : List Node :=
  match m.name, operands with
  | "Equals", receiver :: _ => if m.isStatic then [receiver] else []
  | "ReferenceEquals", receiver :: _ => [receiver]
  | "Invoke", receiver :: _ => staticTarget receiver
  | "InitializeArray", receiver :: array :: _ => receiver :: lengthsOf array
  | "Concat", receiver :: _ => [receiver]
  | "get_HasValue", _ :: arguments => unreadArguments m arguments
  | "get_Value", _ :: arguments => unreadArguments m arguments
  | "GetValueOrDefault", _ :: arguments => unreadArguments m arguments
  | _, _ => []

/-- The operands of a node that its form leaves out. -/
def leftOut (n : Node) : List Node :=
  match n.form with
  | .invocation m _ _ => leftOutOf m n.operands
  | _ => []

/-! ### Counting, form by form -/

variable {k r : Node} {m : Method} {operands : List Node}

theorem hasSideEffects_of_isRepeatable {n : Node} (hn : n.IsFilled) (h : isRepeatable n = true) :
    n.hasSideEffects = false := by
  induction n using Node.induction with
  | step form operands ih =>
    unfold isRepeatable at h
    split at h
    case h_1 heq | h_2 heq =>
      cases heq
      obtain rfl := List.eq_nil_of_length_eq_zero hn.slots
      rfl
    case h_3 target rest heq =>
      cases heq
      obtain ⟨o, ho⟩ := List.length_eq_one_iff.mp hn.slots
      cases ho
      have htarget := ih target List.mem_cons_self (hn.operand List.mem_cons_self) h
      rw [hasSideEffects, anySideEffects, htarget]
      rfl
    case h_4 => cases h

variable {c : Core}

theorem NullableForm.leftOutOf_eq {target : Node} {arguments : List Node}
    (h : NullableForm c m target arguments.head? r) :
    leftOutOf m (target :: arguments) = unreadArguments m arguments := by
  cases h with
  | present hname | value hname | valueOrDefault hname => simp [leftOutOf, hname]

section

variable (hk : k.form.acts = true)
include hk

/-- A leaf has no operands to be counted. -/
theorem timesIn_leaf (hleaf : form.fixedArity? = some 0) (hform : form.acts = false)
    (hfilled : IsFilled ⟨form, operands⟩) : k.timesIn [⟨form, operands⟩] = 0 := by
  have hslots := hfilled.slots
  rw [Form.Takes, hleaf] at hslots
  obtain rfl := List.eq_nil_of_length_eq_zero hslots
  rw [timesIn_of_not_acts hk hform]
  rfl

variable {retyping : Retyping}

theorem FilledWith.timesIn_eq_zero {array : Node} {type : Ty}
    (h : FilledWith c retyping array type operands) : k.timesIn operands = 0 := by
  obtain ⟨kind, -, hconstants⟩ := h.constants
  refine timesIn_of_forall_not_hasSideEffects (Form.hasEffect_of_acts hk) fun o ho => ?_
  obtain ⟨bytes, rfl⟩ := hconstants o ho
  rfl

theorem timesIn_additions (type : Ty) (rest : List Node) {left : Node}
    (hleft : left.form.acts = false) :
    k.timesIn (rest.foldl (fun left right => .binary .add left right type) left).operands
      = k.timesIn (left.operands ++ rest) := by
  induction rest generalizing left with
  | nil => rw [List.foldl_nil, List.append_nil]
  | cons next rest ih =>
    have hcount : k.timesIn [left] = k.timesIn left.operands := by
      obtain ⟨form, operands⟩ := left
      exact timesIn_of_not_acts hk hleft
    rw [List.foldl_cons, ih rfl, timesIn_append left.operands, ← hcount, ← timesIn_cons]
    rfl

theorem NullableForm.timesIn_add {target : Node} {arguments : List Node}
    (h : NullableForm c m target arguments.head? r) (htarget : target.IsFilled) :
    k.timesIn r.operands + k.timesIn (unreadArguments m arguments)
      = k.timesIn (target :: arguments) := by
  have hliteral : ∀ l, k.timesIn [.literal l] = 0 := fun l =>
    timesIn_of_not_hasSideEffects (Form.hasEffect_of_acts hk) rfl
  rw [unreadArguments, timesIn_cons]
  cases h with
  | present hname =>
    rw [if_neg (by simp [hname]), presence, binary, timesIn_cons, nullOf, hliteral, Nat.add_zero]
  | value hname => rw [if_neg (by simp [hname]), unwrapped]
  | @valueOrDefault underlying hname _ hrepeatable =>
    -- The target is read twice, and has nothing to repeat.
    have hnone : k.timesIn [target] = 0 :=
      timesIn_of_not_hasSideEffects (Form.hasEffect_of_acts hk)
        (hasSideEffects_of_isRepeatable htarget hrepeatable)
    have hpresence : k.timesIn [presence c m.declaringType target] = 0 := by
      rw [presence, binary, timesIn_of_not_acts hk rfl, timesIn_cons, hnone, nullOf, hliteral]
    have hunwrapped : k.timesIn [unwrapped underlying target] = 0 :=
      (timesIn_of_not_acts hk rfl).trans hnone
    rw [if_pos hname, ternary, timesIn_cons, hpresence, timesIn_cons, hunwrapped, hnone]
    cases arguments with
    | nil => simp [defaultOf, hliteral, timesIn_nil]
    | cons argument arguments =>
      rw [List.head?_cons, Option.getD_some, List.tail_cons, timesIn_cons argument arguments,
        Nat.zero_add, Nat.zero_add, Nat.zero_add]

theorem CallForm.timesIn_add {h : Hierarchy} (hform : CallForm h retyping m operands r)
    (hfilled : ∀ o ∈ operands, o.IsFilled) :
    k.timesIn r.operands + k.timesIn (leftOutOf m operands) = k.timesIn operands := by
  have hdelegate : ∀ {constructor callee : Method} {type : Ty} {target : Node}
      {rest arguments : List Node}, type.isDelegate = true →
      IsFilled ⟨.newObject constructor type, [target, ⟨.methodIdentifier callee, rest⟩]⟩ →
      k.timesIn (⟨.newObject constructor type, [target, ⟨.methodIdentifier callee, rest⟩]⟩
        :: arguments) = k.timesIn [target] + k.timesIn arguments := by
    intro constructor callee type target rest arguments htype hfilled
    have hidentifier := timesIn_leaf hk rfl rfl
      (hfilled.operand (List.mem_cons_of_mem _ List.mem_cons_self))
    rw [timesIn_cons, timesIn_of_not_acts hk (by simp [Form.acts, Form.onlyCreates, htype]),
      timesIn_cons, hidentifier, Nat.add_zero]
  have hhandle : ∀ {receiver array : Node} {field : Field} {rest : List Node},
      (∀ o ∈ [receiver, array, ⟨.literal (.fieldHandle field), rest⟩], o.IsFilled) →
      k.timesIn [⟨.literal (.fieldHandle field), rest⟩] = 0 := fun h =>
    timesIn_leaf hk rfl rfl (h _ (by simp))
  cases hform with
  | @equals receiver other hname hstatic =>
    simp [leftOutOf, hname, hstatic, intrinsic, timesIn_nil]
  | @staticEquals receiver left right hname hstatic =>
    simp [leftOutOf, hname, hstatic, intrinsic, timesIn_cons receiver [left, right], Nat.add_comm]
  | @identity receiver left right hname =>
    simp [leftOutOf, hname, binary, timesIn_cons receiver [left, right], Nat.add_comm]
  | typeOf hname => simp [leftOutOf, hname, intrinsic, timesIn_nil]
  | @static constructor callee type target rest arguments hname htype hstatic =>
    have hempty : k.timesIn [.empty] = 0 := timesIn_of_not_acts hk rfl
    rw [hdelegate htype (hfilled _ List.mem_cons_self)]
    simp [leftOutOf, hname, staticTarget, createdDelegate?, htype, hstatic, invocation,
      timesIn_cons .empty arguments, hempty, Nat.add_comm]
  | @direct constructor callee type target rest arguments hname htype hstatic =>
    rw [hdelegate htype (hfilled _ List.mem_cons_self)]
    simp [leftOutOf, hname, staticTarget, createdDelegate?, htype, hstatic, invocation,
      timesIn_nil, timesIn_cons target arguments]
  | delegate hname hcreated =>
    simp [leftOutOf, hname, staticTarget, hcreated, invocation, timesIn_nil]
  | @newArray receiver array field type element rank rest elements hname hnew helements =>
    have hleft : leftOutOf m [receiver, array, ⟨.literal (.fieldHandle field), rest⟩]
        = receiver :: array.operands := by simp [leftOutOf, hname, lengthsOf, hnew]
    have harray : k.timesIn [array] = k.timesIn array.operands := by
      obtain ⟨form, lengths⟩ := array
      cases hnew
      exact timesIn_of_not_acts hk rfl
    rw [hleft, helements.timesIn_eq_zero hk, timesIn_cons receiver array.operands, ← harray,
      timesIn_cons receiver [array, _], timesIn_cons array [_], hhandle hfilled, Nat.zero_add,
      Nat.add_zero]
  | @storedArray receiver array field element rest elements hname hlocation helements =>
    have hleft : leftOutOf m [receiver, array, ⟨.literal (.fieldHandle field), rest⟩]
        = [receiver] := by
      have hlengths : lengthsOf array = [] := by
        obtain ⟨form, lengths⟩ := array
        cases form <;> first | rfl | cases hlocation
      simp [leftOutOf, hname, hlengths]
    have hliteral : k.timesIn [⟨.arrayLiteral element, elements⟩] = 0 :=
      (timesIn_of_not_acts hk rfl).trans (helements.timesIn_eq_zero hk)
    rw [hleft, binary, timesIn_cons array [_], hliteral, timesIn_cons receiver [array, _],
      timesIn_cons array [_], hhandle hfilled, Nat.add_comm]
  | @concat receiver first second rest hname =>
    have hleft : leftOutOf m (receiver :: first :: second :: rest) = [receiver] := by
      simp [leftOutOf, hname]
    rw [hleft, timesIn_additions hk _ _ rfl, timesIn_cons receiver (first :: _), Nat.add_comm]
    rfl
  | nullable hread =>
    rw [hread.leftOutOf_eq]
    exact hread.timesIn_add hk (hfilled _ List.mem_cons_self)

theorem Replaced.timesIn_add {h : Hierarchy} {n : Node} (hreplaced : Replaced h retyping n r)
    (hn : n.IsFilled) : k.timesIn r.operands + k.timesIn (leftOut n) = k.timesIn n.operands := by
  cases hreplaced with
  | call hform => exact hform.timesIn_add hk fun o ho => hn.operand ho
  | wrapped => rfl
  | @property property getter target _ _ hread =>
    have hnone : unreadArguments getter [] = [] := by
      rw [unreadArguments]
      split <;> rfl
    have hcount : k.timesIn r.operands + k.timesIn (unreadArguments getter [])
        = k.timesIn [target] := hread.timesIn_add hk (hn.operand List.mem_cons_self)
    rwa [hnone] at hcount

end

/-- The form that a call, the creation of an object or the read of a property has instead has each
effect of the operands as often as they do, except for what is left out. So it keeps all effects
exactly if nothing acts in what is left out, and then each of them is as often in the whole form. -/
theorem replaced_call_keeps_effects_iff {h : Hierarchy} {retyping : Retyping} {n : Node}
    (hn : n.IsFilled) (hreplace : replaceCall? h retyping n = some r) :
    (∀ k : Node, k.form.acts = true →
      k.timesIn r.operands + k.timesIn (leftOut n) = k.timesIn n.operands)
    ∧ ((∀ k : Node, k.form.acts = true → k.timesIn r.operands = k.timesIn n.operands)
      ↔ ∀ o ∈ leftOut n, ∀ k ∈ o.selfAndDescendants, k.form.acts = false)
    ∧ ((∀ o ∈ leftOut n, ∀ k ∈ o.selfAndDescendants, k.form.acts = false) →
      ∀ k : Node, k.form.acts = true → 0 < k.timesIn n.operands →
        k.timesIn [r] = k.timesIn n.operands) := by
  have hcount : ∀ k : Node, k.form.acts = true →
      k.timesIn r.operands + k.timesIn (leftOut n) = k.timesIn n.operands := fun k hk =>
    (replaced_of_replaceCall? hreplace).timesIn_add hk hn
  have hkept : (∀ k : Node, k.form.acts = true → k.timesIn r.operands = k.timesIn n.operands)
      ↔ ∀ o ∈ leftOut n, ∀ k ∈ o.selfAndDescendants, k.form.acts = false := by
    constructor
    · -- The counts add up, so nothing that acts remains for what is left out.
      intro hsame o ho k hk
      refine Bool.eq_false_iff.mpr fun hacts => ?_
      have hzero : k.timesIn (leftOut n) = 0 := by
        have hadd := hcount k hacts
        rw [hsame k hacts] at hadd
        omega
      exact timesIn_eq_zero_iff.mp hzero o ho hk
    · intro hnone k hk
      have hzero : k.timesIn (leftOut n) = 0 :=
        timesIn_eq_zero_iff.mpr fun o ho hmem => by simp [hnone o ho k hmem] at hk
      rw [← hcount k hk, hzero, Nat.add_zero]
  refine ⟨hcount, hkept, fun hnone k hk hpos => ?_⟩
  have hsame := hkept.mpr hnone k hk
  rw [timesIn_of_operands (hsame ▸ hpos), hsame]

/-! ### Effects that are kept and lost -/

/-- The call of a static method of the root class without parameters. -/
def nextCall : Node :=
  .invocation ⟨"Next", Core.standard.object, Core.standard.int32, [], [],
    { MethodFlags.empty with isStatic := true }⟩ .static false .empty []

/-- A nullable number, or the next number if it is absent. -/
def valueOrNext : Node :=
  let nullable := Core.standard.nullableOf Core.standard.int32
  .invocation ⟨"GetValueOrDefault", nullable, Core.standard.int32,
      [⟨"defaultValue", Core.standard.int32⟩], [], .empty⟩ .direct false
    (.ofVariable ⟨0, "a", .localVariable, nullable, 0⟩) [nextCall]

/-- The variable is read twice, and the call is made once. -/
theorem valueOrNext_keeps_next :
    valueOrNext.IsFilled ∧ ∃ r, replaceCall? (.ofCore .standard) .empty valueOrNext = some r
      ∧ 0 < nextCall.timesIn valueOrNext.operands
      ∧ nextCall.timesIn [r] = nextCall.timesIn valueOrNext.operands := by
  have hfilled : valueOrNext.IsFilled := by
    simp [IsFilled, valueOrNext, nextCall, invocation, selfAndDescendants_mk, ofVariable, empty,
      Form.Takes, Form.fixedArity?, Form.minArity]
  have hpos : 0 < nextCall.timesIn valueOrNext.operands :=
    timesIn_pos_of_mem (List.mem_cons_of_mem _ List.mem_cons_self) List.mem_cons_self
  rcases hreplace : replaceCall? (.ofCore .standard) .empty valueOrNext with _ | r
  · cases hreplace
  · refine ⟨hfilled, r, rfl, hpos, ?_⟩
    exact (replaced_call_keeps_effects_iff hfilled hreplace).2.2 (fun _ ho => by cases ho)
      nextCall rfl hpos

/-- A new array of the next length, filled from a blob of two numbers. -/
def filledArray : Node :=
  .invocation ⟨"InitializeArray",
      .named (.plain 40 "System.Runtime.CompilerServices" "RuntimeHelpers" (.ofFile "mscorlib.dll")
        .classType),
      Core.standard.void, [], [], { MethodFlags.empty with isStatic := true }⟩ .static false .empty
    [⟨.newArray Core.standard.int32 1, [nextCall]⟩,
      .literal (.fieldHandle ⟨"blob", Core.standard.object, Core.standard.int32, true,
        some [1, 0, 0, 0, 2, 0, 0, 0]⟩)]

/-- The array literal has the two numbers, and nothing calls for the length. -/
theorem length_of_filled_array_lost :
    ∃ r, replaceCall? (.ofCore .standard) .empty filledArray = some r
      ∧ 0 < nextCall.timesIn filledArray.operands ∧ nextCall.timesIn [r] = 0 := by
  have hpure : (replaceCall? (.ofCore .standard) .empty filledArray).map hasSideEffects
      = some false := by
    decide +kernel
  rcases hreplace : replaceCall? (.ofCore .standard) .empty filledArray with _ | r
    <;> rw [hreplace] at hpure
  · cases hpure
  · refine ⟨r, rfl, ?_, timesIn_of_not_hasSideEffects rfl (Option.some.inj hpure)⟩
    exact timesIn_pos_of_mem (List.mem_cons_of_mem _ List.mem_cons_self)
      (List.mem_cons_of_mem _ List.mem_cons_self)

end Canonical

end ScriptLowering
