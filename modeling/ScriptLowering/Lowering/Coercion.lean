import ScriptLowering.Lowering.Monad

/-!
# Coercion to expected types

A consumer expects a type. Constants are written as constants of that type, other numbers get a cast
that a later pass expands; pointers, references and types without a numeric kind are left as they
are. No coercion takes place while casts are switched off.
-/

namespace ScriptLowering.Lowering

open Script

/-- A constant as a constant of the expected type. -/
def literalAs? (node : Node) (expected : Ty) : Option Node := do
  let l ← node.literal?
  if l.isNull && (!expected.isValueType || expected.isNullable) then
    return .nullOf expected
  else
    return .literal (← l.retype? expected)

/-- Whether a type is a pointer or a reference. -/
def isAddress (t : Ty) : Bool :=
  t.isPointer || t.isByRef

/-- A value as its consumer expects it. -/
def coerced (h : Hierarchy) (c : Context) (node : Node) (expected : Ty) : Node :=
  if !c.autoCastEnabled then
    node
  else
    let actual := node.computedType h.core c.scope.retyping
    if h.same expected actual || isAddress expected || isAddress actual then
      node
    else
      match literalAs? node expected with
      | some constant => constant
      | none =>
        if expected.numericKind?.isSome && actual.numericKind?.isSome then
          .cast node expected false
        else
          node

namespace Lowerer

/-- A value as its consumer expects it. -/
def coerce (g : Lowerer) (node : Node) (expected : Ty) : Lower Node :=
  return coerced g.env.types (← Lower.context) node expected

/-- Lowers an expression to the type that it is annotated with. -/
def expression (g : Lowerer) (e : Cil.Expr) : Lower Node := do
  let node ← g.raw e
  match e.expected? with
  | some expected => g.coerce node expected
  | none => return node

/-- Lowers an expression to a type. -/
def expecting (g : Lowerer) (e : Cil.Expr) (type : Ty) : Lower Node := do
  let node ← g.raw e
  g.coerce node type

/-- Lowers an expression without casts anywhere in it. -/
def uncast (g : Lowerer) (e : Cil.Expr) : Lower Node :=
  Lower.withAutoCast false (g.raw e)

/-- Lowers a condition. -/
def condition (g : Lowerer) (e : Cil.Expr) : Lower Node :=
  g.expecting e g.core.boolean

end Lowerer

end ScriptLowering.Lowering
