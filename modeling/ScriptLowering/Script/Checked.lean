import ScriptLowering.Error

/-!
# Checked construction

Nodes whose operands do not fit their form are refused, reference wrappers do not wrap themselves,
and assignments need a location as target. `Node.make` checks a whole node, `Node.validate` what
replacements have to keep.
-/

namespace ScriptLowering.Script

namespace Form

/-- Refuses a reference wrapper whose operand is the same wrapper. -/
def checkWrapper (form : Form) (first? : Option Node) : Except Error Unit :=
  match form.referenceWrapper?, first? with
  | some wrapper, some child =>
    if child.form.referenceWrapper? == some wrapper then
      .error (.invalidNode (.selfWrap form))
    else
      .ok ()
  | _, _ => .ok ()

/-- Refuses a number of operands that a form with fixed slots does not take. -/
def checkCount (form : Form) (count : Nat) : Except Error Unit :=
  match form.fixedArity? with
  | some expected =>
    if expected = count then .ok () else .error (.invalidNode (.operandCount form expected count))
  | none => .ok ()

/-- Refuses too few operands for a form without fixed slots. -/
def checkLeast (form : Form) (count : Nat) : Except Error Unit :=
  if form.fixedArity?.isNone && count < form.minArity then
    .error (.invalidNode (.tooFewOperands form form.minArity count))
  else
    .ok ()

end Form

namespace Node

/-- A node, if the operands fit the form. -/
def make (form : Form) (operands : List Node) : Except Error Node := do
  form.checkCount operands.length
  form.checkLeast operands.length
  form.checkWrapper operands.head?
  return ⟨form, operands⟩

/-- Checks the slots of a node and the reference wrapper rule. -/
def validate (n : Node) : Except Error Unit := do
  n.form.checkCount n.operands.length
  n.form.checkWrapper n.operands.head?

/-- A reference to a location. -/
def takeReference (location : Node) : Except Error Node :=
  make .takeReference [location]

/-- A reference passed as an argument. -/
def passByReference (reference : Node) : Except Error Node :=
  make .passByReference [reference]

/-- A reference to a field. -/
def memberReference (field : Field) (target : Node) : Except Error Node :=
  make (.memberReference field) [target]

/-- An assignment with an assignment operator. -/
def compoundAssign (c : Core) (r : Retyping) (op : BinaryOp) (target value : Node) :
    Except Error Node :=
  if !op.isAssignment then .error (.compoundAssignment (.notAnAssignment op))
  else if !target.isLocation then .error (.invalidTarget target)
  else .ok (binary op target value (target.computedType c r))

/-- An assignment that is made has a location for its target. -/
theorem eq_of_compoundAssign {c : Core} {r : Retyping} {op : BinaryOp} {target value n : Node}
    (h : compoundAssign c r op target value = .ok n) :
    target.isLocation = true ∧ n = binary op target value (target.computedType c r) := by
  unfold compoundAssign at h
  split at h
  · cases h
  · split at h
    · cases h
    · next hlocation =>
      cases h
      exact ⟨by simpa using hlocation, rfl⟩

/-- A plain assignment. -/
def assign (c : Core) (r : Retyping) (target value : Node) : Except Error Node :=
  compoundAssign c r .assign target value

/-- Puts `new` for every operand that is the same as `old`, and answers how many there were. -/
def replaceChild (n old new : Node) : Except Error (Nat × Node) := do
  if n.operands.head?.any (· == old) then
    n.form.checkWrapper (some new)
  return (n.operands.countP (· == old),
    ⟨n.form, n.operands.map fun child => if child == old then new else child⟩)

end Node

end ScriptLowering.Script
