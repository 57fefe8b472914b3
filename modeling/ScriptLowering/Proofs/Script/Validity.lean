import Mathlib.Tactic.MkIffOfInductiveProp
import ScriptLowering.Script.Checked

/-!
# Valid nodes

A node is valid when its operands fit its slots, it is no reference wrapper around the same wrapper,
and what it assigns to is a location. Validity alone is not kept when operands are replaced: a cast
that stands for its operand may put a member reference under a member reference. `Node.Sound` says
in addition which operands a node may have, in terms that replacements keep; sound nodes are valid
(`Node.Sound.valid`).
-/

namespace ScriptLowering

/-- A property that is only read or only written, as an accessor's signature tells of it. -/
def Property.IsOneSided (p : Property) : Prop :=
  p.getter? = none ∨ p.setter? = none

namespace Script

namespace Form

/-- Whether a form takes a number of operands: that of its slots if they are fixed, else at least
the least number. -/
def Takes (form : Form) (count : Nat) : Prop :=
  match form.fixedArity? with
  | some expected => count = expected
  | none => form.minArity ≤ count

/-- The forms that write to their first operand: assignments, increments and decrements. -/
def assigns : Form → Bool
  | unary op _ => op.isMutating
  | binary op _ => op.isAssignment
  | _ => false

/-- The form of an argument that is passed by reference. -/
def isPassing : Form → Bool
  | passByReference => true
  | _ => false

/-- The forms that are a member reference, or may be replaced by one: casts to references. -/
def mayBeMember : Form → Bool
  | memberReference _ => true
  | cast t _ => t.isByRef
  | _ => false

/-- What a form demands of each of its operands. A reference is taken of a location; a member
reference is not made of what may be one; and what passes through a conversion is no argument that
is passed by reference. -/
def Demands (form : Form) (operand : Node) : Prop :=
  match form with
  | takeReference => operand.isLocation = true
  | memberReference _ => operand.form.mayBeMember = false
  | passByReference | unary _ _ | cast _ _ | changeType _ | conversion _ _ _ | structCopy =>
    operand.form.isPassing = false
  | _ => True

end Form

namespace Node

/-- A valid node. -/
structure Valid (n : Node) : Prop where
  /-- The operands fit the slots. -/
  slots : n.form.Takes n.operands.length
  /-- A reference wrapper does not wrap the same wrapper. -/
  wrapper : ∀ w, n.form.referenceWrapper? = some w →
    ∀ o ∈ n.operands, o.form.referenceWrapper? ≠ some w
  /-- What is assigned to is a location. -/
  target : n.form.assigns = true → ∀ o, n.operands.head? = some o → o.isLocation = true

theorem isByRef_of_mayBeMember {n : Node} (h : n.form.mayBeMember = true) (c : Core)
    (r : Retyping) : (n.computedType c r).isByRef = true := by
  obtain ⟨form, operands⟩ := n
  change form.mayBeMember = true at h
  unfold Form.mayBeMember at h
  split at h
  · simp [computedType, Form.typeRule, Ty.isByRef]
  · simpa [computedType, Form.typeRule] using h
  · cases h

/-- A node whose operands are as its form demands, and which accesses no property with both
accessors. -/
@[mk_iff]
structure Sound (n : Node) : Prop where
  slots : n.form.Takes n.operands.length
  target : n.form.assigns = true → ∀ o, n.operands.head? = some o → o.isLocation = true
  operands : ∀ o ∈ n.operands, n.form.Demands o
  accessor : ∀ p, n.form = .propertyAccess p → p.IsOneSided

/-- A location is no reference wrapper. -/
theorem referenceWrapper?_of_isLocation {n : Node} (h : n.isLocation = true) :
    n.form.referenceWrapper? = none := by
  unfold isLocation at h
  cases hf : n.form <;> rw [hf] at h <;> first | rfl | cases h

theorem referenceWrapper?_ne_of_demands {form : Form} {w : Form.ReferenceWrapper}
    (hw : form.referenceWrapper? = some w) {o : Node} (h : form.Demands o) :
    o.form.referenceWrapper? ≠ some w := by
  unfold Form.referenceWrapper? at hw
  split at hw
  · -- A reference is taken of a location, and a location is no wrapper.
    rw [referenceWrapper?_of_isLocation h]
    simp
  · have hplain : o.form.isPassing = false := h
    cases hw
    unfold Form.referenceWrapper?
    split <;> simp_all [Form.isPassing]
  · have hplain : o.form.mayBeMember = false := h
    cases hw
    unfold Form.referenceWrapper?
    split <;> simp_all [Form.mayBeMember]
  · cases hw

/-- Sound nodes are valid. -/
theorem Sound.valid {n : Node} (h : n.Sound) : n.Valid where
  slots := h.slots
  wrapper _ hw o ho := referenceWrapper?_ne_of_demands hw (h.operands o ho)
  target := h.target

end Node

end Script

end ScriptLowering
