import ScriptLowering.Canonical.Reduction
import ScriptLowering.Lowering.Scope

/-!
# Updates of properties

A property has no storage, so `r.P[i] op= v` reads it with the getter and writes it with the setter:
`(a = r, b = i, c = a.P[b] op v, a.P[b] = c, c)`, with temporaries `a`, `b` and `c`. Operands that
can be read twice stay in place.
-/

namespace ScriptLowering.Canonical

open Script Lowering

/-- Whether an operand of a property access can stand in both accesses. -/
def canRepeat (isReceiver : Bool) (operand : Node) : Bool :=
  match operand.form with
  | .typeIdentifier _ | .var _ | .empty => true
  | _ => !isReceiver && operand.isConstant

/-- Operands that can be read twice, after the assignments that make them so. -/
structure Spilled where
  assignments : List Node
  operands : List Node

/-- Puts operands that cannot be repeated into temporaries, from left to right. -/
def spill (c : Core) : Bool → List Node → Scope → Spilled × Scope
  | _, [], scope => (⟨[], []⟩, scope)
  | isReceiver, operand :: rest, scope =>
    if canRepeat isReceiver operand then
      let (others, scope) := spill c false rest scope
      (⟨others.assignments, operand :: others.operands⟩, scope)
    else
      let type := operand.computedType c scope.retyping
      let (v, scope) := scope.newTemporary type
      let (others, scope) := spill c false rest scope
      (⟨.binary .assign (.ofVariable v) operand type :: others.assignments,
        .ofVariable v :: others.operands⟩, scope)

/-- The access of a property with the given operands. -/
def accessOf (property : Property) (operands : List Node) : Node :=
  .propertyAccess property (operands.head?.getD .empty) operands.tail

/-- The sequence of reads and writes that an update of a property is. -/
def updateSequence (c : Core) (property : Property) (op : BinaryOp) (operands : List Node)
    (value : Node) (scope : Scope) : Except Error Node × Scope :=
  let (spilled, scope) := spill c true operands scope
  let access := accessOf property spilled.operands
  let (v, scope) := scope.newTemporary property.type
  let result := Node.ofVariable v
  let compute := Node.binary .assign result (.binary op access value property.type) property.type
  match Node.assign c scope.retyping access result with
  | .ok write => (.ok (.comma (spilled.assignments ++ [compute, write, result])), scope)
  | .error e => (.error e, scope)

/-- The reducer that splits updates of properties. -/
def propertyUpdate (c : Core) : Reducer Scope where
  name := "property compound"
  reduct? n scope :=
    match n with
    | ⟨.binary op _, [⟨.propertyAccess property, operands⟩, value]⟩ =>
      match op.compoundBase? with
      | some base =>
        match updateSequence c property base operands value scope with
        | (.ok sequence, scope) => (.ok (some sequence), scope)
        | (.error e, scope) => (.error e, scope)
      | none => (.ok none, scope)
    | _ => (.ok none, scope)

end ScriptLowering.Canonical
