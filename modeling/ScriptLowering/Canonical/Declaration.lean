import ScriptLowering.Lowering.Method

/-!
# The declaration of variables

A finished body starts with one statement that declares the locals and temporaries that occur in
it. Parameters are declared by the signature.
-/

namespace ScriptLowering.Canonical

open Script Lowering

/-- The variable that a node by itself mentions. -/
def mentioned? (n : Node) : Option Variable :=
  match n.form with
  | .var v => some v
  | .tryCatch var? => var?
  | _ => none

/-- The numbers of the variables that occur in a tree. -/
def mentionedIds (body : Node) : List Nat :=
  (body.selfAndDescendants.filterMap mentioned?).map (·.id)

/-- The variables that are declared. -/
def declaredIn (m : Lowered) : List Variable :=
  let ids := mentionedIds m.body
  (m.scope.locals ++ m.scope.temporaries).filter fun v => !v.isParameter && ids.contains v.id

/-- A statement before a body. -/
def prepend (statement body : Node) : Node :=
  match body with
  | ⟨.block none, statements⟩ => .block (statement :: statements)
  | body => .block [statement, body]

/-- Declares the variables of a method, and tells whether there were any. -/
def declareVariables (m : Lowered) : Bool × Lowered :=
  match declaredIn m with
  | [] => (false, { m with variablesDeclared := true })
  | vs =>
    let declaration : Node := ⟨.variableDeclaration, vs.map .ofVariable⟩
    (true, { m with body := prepend declaration m.body, variablesDeclared := true })

end ScriptLowering.Canonical
