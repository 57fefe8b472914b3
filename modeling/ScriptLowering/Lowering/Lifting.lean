import ScriptLowering.Lowering.Coercion

/-!
# Nullable values and lifted operations

An operation on nullable values is lifted: the result is absent if an operand is, else the wrapped
result of the operation on the values. Operands that are not variables are evaluated once, into
temporaries, before the test.
-/

namespace ScriptLowering.Lowering

open Script

/-- What the operands of a lifted operation need before it. -/
structure Lifts where
  /-- Assignments of temporaries. -/
  prelude : List Node
  /-- Tests for absent operands. -/
  checks : List Node

namespace Lifts

/-- Nothing is needed. -/
def empty : Lifts :=
  ⟨[], []⟩

/-- What is needed first, and then. -/
def append (a b : Lifts) : Lifts :=
  ⟨a.prelude ++ b.prelude, a.checks ++ b.checks⟩

end Lifts

/-- The type of a lifted result: the inferred one if it is nullable, else that of the operation made
nullable. -/
def liftedType (c : Core) (inferred? : Option Ty) (type : Ty) : Ty :=
  match inferred? with
  | some t => if t.isNullable then t else c.nullableOf type
  | none => c.nullableOf type

/-- The disjunction of tests, if there are any. -/
def anyOf? (c : Core) : List Node → Option Node
  | [] => none
  | first :: rest =>
    some (rest.foldl (fun left right => .binary .logicalOr left right c.boolean) first)

/-- A lifted operation, of which the operands were prepared. -/
def lifted (c : Core) (operation : Node) (lifts : Lifts) (result : Ty) : Node :=
  let wrapped : Node := ⟨.nullableWrap result, [operation]⟩
  match anyOf? c lifts.checks with
  | none => wrapped
  | some absent => .comma (lifts.prelude ++ [.ternary absent (.nullOf result) wrapped result])

namespace Lowerer

/-- Prepares an operand that is unwrapped: a variable that holds it, and the test for its
absence. -/
def liftOperand (g : Lowerer) (operand : Node) : Lower (Node × Lifts) := do
  let type ← g.typeOf operand
  let isAbsent (n : Node) : Node := .binary .equal n (.nullOf type) g.core.boolean
  if operand.var?.isSome then
    return (operand, ⟨[], [isAbsent operand]⟩)
  else
    let temporary ← Lower.newTemporary type
    return (temporary, ⟨[.binary .assign temporary operand type], [isAbsent temporary]⟩)

mutual

/-- Prepares every operand that is unwrapped in a node. What is already lifted has tests of its
own. -/
def liftIn (g : Lowerer) : Node → Lower (Node × Lifts)
  | ⟨form, operands⟩ =>
    match form with
    | .ternary _ => return (⟨form, operands⟩, .empty)
    | .nullableWrap _ => return (⟨form, operands⟩, .empty)
    | .nullableUnwrap _ =>
      match operands with
      | [] => return (⟨form, []⟩, .empty)
      | operand :: rest => do
        let (operand, lifts) ← g.liftOperand operand
        return (⟨form, operand :: rest⟩, lifts)
    | _ => do
      let (operands, lifts) ← g.liftInAll operands
      return (⟨form, operands⟩, lifts)

/-- Prepares every operand that is unwrapped in some nodes, from left to right. -/
def liftInAll (g : Lowerer) : List Node → Lower (List Node × Lifts)
  | [] => return ([], .empty)
  | n :: rest => do
    let (n, first) ← g.liftIn n
    let (rest, others) ← g.liftInAll rest
    return (n :: rest, first.append others)

end

/-- Lowers the wrapping of a value. -/
def nullableWrap (g : Lowerer) (e : Cil.Expr) : Lower Node := do
  let value ← g.expression (← argument e 0)
  let valueType ← g.typeOf value
  if valueType.isNullable then
    return value
  else
    let type := liftedType g.core e.inferred? valueType
    return if value.isNullLiteral then .nullOf type else ⟨.nullableWrap type, [value]⟩

/-- Lowers the unwrapping of a value. -/
def nullableValue (g : Lowerer) (e : Cil.Expr) : Lower Node := do
  let value ← g.expression (← argument e 0)
  match (← g.typeOf value).nullableArgument? with
  | some underlying => return ⟨.nullableUnwrap underlying, [value]⟩
  | none => return value

/-- Lowers a lifted operation. -/
def liftedOperation (g : Lowerer) (e : Cil.Expr) : Lower Node := do
  let operation ← g.expression (← argument e 0)
  let result := liftedType g.core e.inferred? (← g.typeOf operation)
  let (operation, lifts) ← g.liftIn operation
  return lifted g.core operation lifts result

end Lowerer

end ScriptLowering.Lowering
