import ScriptLowering.Proofs.Canonical.CallForm
import ScriptLowering.Proofs.Script.Formed

/-!
# Forms of calls are expressions

The form that a call has instead is an expression made of the operands of the call, and it is
neither an argument passed by reference nor a member reference. What is replaced is no location
where properties are derived: only a property with a getter is replaced, and such a property has no
setter (`replaceCall?_spec`).
-/

namespace ScriptLowering.Canonical

open Script

variable {derived : Prop} {vars : List Variable} {around : List Enclosure} {operands : List Node}
  {m : Method} {n : Node} {retyping : Retyping}

theorem forming_isExpression (h : Hierarchy) :
    Forming h retyping (fun _ => True) (Node.IsExpression derived vars around) where
  empty := Node.isExpression_empty
  nullOf _ := Node.isExpression_literal
  defaultOf _ := Node.isExpression_literal
  wrapped _ hn := (Node.isExpression_plain rfl).mpr ⟨rfl, List.forall_mem_singleton.mpr hn⟩
  unwrapped _ hn := (Node.isExpression_plain rfl).mpr ⟨rfl, List.forall_mem_singleton.mpr hn⟩
  operation hop _ hleft hright := Node.isExpression_operation hop hleft hright
  ternary _ hcondition hfirst hsecond :=
    Node.isExpression_ternary.mpr ⟨hcondition, hfirst, hsecond⟩
  intrinsic _ hns := by simpa using hns
  invocation _ htarget harguments := Node.isExpression_invocation.mpr ⟨htarget, harguments⟩
  created hn := ⟨hn.operand List.mem_cons_self, fun _ _ => trivial⟩
  filled _ hfilled := by
    obtain ⟨kind, -, hconstants⟩ := hfilled.constants
    refine (Node.isExpression_plain rfl).mpr ⟨Nat.zero_le _, fun o ho => ?_⟩
    obtain ⟨bytes, rfl⟩ := hconstants o ho
    exact Node.isExpression_literal
  assign hlocation harray hvalue :=
    Node.isExpression_binary.mpr ⟨fun _ _ => hlocation, harray, hvalue⟩

theorem replaceCall?_spec {h : Hierarchy} {r : Node} (hn : n.IsExpression derived vars around)
    (hreplace : replaceCall? h retyping n = some r) :
    r.IsOrdinary derived vars around ∧ (derived → n.isLocation = false) := by
  have hreplaced := replaced_of_replaceCall? hreplace
  refine ⟨⟨?_, ?_, ?_⟩, fun hd => ?_⟩
  · exact (forming_isExpression h).replaced hreplaced (fun _ _ => trivial) fun o ho => hn.operand ho
  all_goals have hresult := hreplaced.isResult
  · cases hform : r.form <;> rw [hform] at hresult <;> first | rfl | cases hresult
  · cases hform : r.form <;> rw [hform] at hresult <;> first | rfl | cases hresult
  cases hreplaced with
  | call | wrapped => rfl
  | @property property getter _ _ hgetter _ =>
    -- A derived property with a getter has no setter.
    rcases (hn.sound hd).accessor property rfl with hget | hset
    · rw [hget] at hgetter
      cases hgetter
    · simp [Node.isLocation, Form.isLocation, hset]

end ScriptLowering.Canonical
