import ScriptLowering.Lowering.Statement

/-!
# Methods

Lowering a method declares its variables and lowers its body. A method that cannot be lowered is
replaced by a stub that throws when it is called, and the failure is recorded.
-/

namespace ScriptLowering.Lowering

open Script

/-- A lowered method. -/
structure Lowered where
  method : Method
  /-- The block of the method. -/
  body : Node
  scope : Scope
  /-- Whether the body starts with the declaration of its variables. -/
  variablesDeclared : Bool

namespace Lowered

/-- A new temporary of the method. -/
def newTemporary (m : Lowered) (type : Ty) : Variable × Lowered :=
  let (v, scope) := m.scope.newTemporary type
  (v, { m with scope := scope })

end Lowered

/-- The variables that a method body declares. -/
def declaredVariables (body : Cil.MethodBody) : List Cil.Variable :=
  body.this?.toList ++ body.parameters ++ body.locals

/-- Lowers a method in a computation: variables first, then the statements. -/
def lowerBody (env : Env) (body : Cil.MethodBody) : Lower Lowered := do
  let g := Lowerer.ofMethod env body.method
  let _ ← Lower.each g.resolve (declaredVariables body)
  let statements ← g.statements body.statements
  return {
    method := body.method
    body := .block statements
    scope := (← Lower.context).scope
    variablesDeclared := false }

/-- Lowers a method. -/
def lower (env : Env) (body : Cil.MethodBody) (session : Session) :
    Except Error Lowered × Session :=
  let start : State :=
    { context := .start env.settings.autoCast env.settings.maxRecursionDepth
      session := session }
  let (result, state) := (lowerBody env body).run start
  (result, state.session)

/-- The parameters of a stub, numbered from `id` on. -/
def stubParameters : Nat → List Cil.Variable → List Variable
  | _, [] => []
  | id, v :: rest =>
    let kind : VariableKind :=
      match v.role with
      | .this => .this
      | _ => .parameter
    { id, name := v.name, kind, declaredType := v.type } :: stubParameters (id + 1) rest

/-- The stub of a method: its parameters, and a body that throws. -/
def stub (settings : Settings) (body : Cil.MethodBody) : Lowered :=
  let parameters := stubParameters 0 (body.this?.toList ++ body.parameters)
  { method := body.method
    body := .block [.expressionStatement (.throwValue (.string settings.stubMessage))]
    scope := { Scope.empty with parameters, nextId := parameters.length }
    variablesDeclared := false }

/-- What became of a method. -/
inductive Outcome where
  | lowered (method : Lowered)
  /-- The method is a stub, for the given reason. -/
  | stubbed (method : Lowered) (error : Error)

namespace Outcome

/-- The method, lowered or a stub. -/
def method : Outcome → Lowered
  | lowered m => m
  | stubbed m _ => m

/-- The reason for a stub. -/
def error? : Outcome → Option Error
  | lowered _ => none
  | stubbed _ e => some e

/-- Whether the method is a stub. -/
def isStub (o : Outcome) : Bool :=
  o.error?.isSome

end Outcome

/-- Records that a method was replaced by a stub. -/
def recordFailure (session : Session) (concern : Concern) (lead : String) (name : String)
    (error : Error) : Session :=
  (session.write .warn (lead ++ error.message)).record
    { severity := .error
      concern := concern
      message := error.message
      method? := some name
      offset? := none }

/-- Lowers a method, or replaces it by a stub. -/
def lowerOrStub (env : Env) (body : Cil.MethodBody) (session : Session) : Outcome × Session :=
  match lower env body session with
  | (.ok m, session) => (.lowered m, session)
  | (.error e, session) =>
    let name := body.method.fullName
    (.stubbed (stub env.settings body) e,
      recordFailure session .method ("Replacing " ++ name ++ " with a stub: ") name e)

end ScriptLowering.Lowering
