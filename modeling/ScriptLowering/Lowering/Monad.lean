import ScriptLowering.Diagnostic
import ScriptLowering.Lowering.Context
import ScriptLowering.Lowering.Memory
import ScriptLowering.Script.Checked

/-!
# Computations that lower

A `Session` is what methods of one run share: answers remembered, diagnostics and log. Lowering a
method is a computation in `Lower`: it changes the context and the session, and may fail; what it
recorded before a failure stays recorded.
-/

namespace ScriptLowering.Lowering

open Script

/-- What does not change during a run. -/
structure Env where
  types : Hierarchy
  directives : Directives
  settings : Settings

namespace Env

/-- The core module. -/
def core (env : Env) : Core :=
  env.types.core

end Env

/-- What the methods of a run share. -/
structure Session extends Memory where
  diagnostics : Diagnostics
  /-- The log, in order. -/
  log : List LogRecord

namespace Session

/-- The beginning of a run. -/
def start : Session where
  toMemory := .empty
  diagnostics := .empty
  log := []

/-- Writes a line to the log. -/
def write (s : Session) (level : LogLevel) (message : String) : Session :=
  { s with log := s.log ++ [⟨level, message⟩] }

/-- Records a diagnostic. -/
def record (s : Session) (d : Diagnostic) : Session :=
  { s with diagnostics := s.diagnostics.push d }

end Session

/-- The state of a lowering. -/
structure State where
  context : Context
  session : Session

/-- A computation that lowers. -/
abbrev Lower :=
  ExceptT Error (StateM State)

namespace Lower

/-- Fails or answers like a pure computation. -/
def ofExcept {α : Type} : Except Error α → Lower α
  | .ok a => pure a
  | .error e => throw e

/-- The current context. -/
def context : Lower Context :=
  return (← get).context

/-- Changes the context. -/
def modifyContext (f : Context → Context) : Lower Unit :=
  modify fun s => { s with context := f s.context }

/-- Changes the variables. -/
def modifyTable (f : Table → Table) : Lower Unit :=
  modifyContext fun c => { c with table := f c.table }

/-- Runs a computation and then changes the context, also when it fails. -/
def thenRestore {α : Type} (action : Lower α) (restore : Context → Context) : Lower α :=
  fun s =>
    let (result, s) := action.run s
    (result, { s with context := restore s.context })

/-- Runs a computation with a choice on casts in force. -/
def withAutoCast {α : Type} (enabled : Bool) (action : Lower α) : Lower α := do
  modifyContext (·.pushAutoCast enabled)
  thenRestore action Context.popAutoCast

/-- Runs a computation inside a construct. -/
def withTarget {α : Type} (target : JumpTarget) (action : Lower α) : Lower α := do
  modifyContext (·.pushTarget target)
  thenRestore action Context.popTarget

/-- Runs a computation one level down. -/
def oneLevelDown {α : Type} (action : Lower α) : Lower α := do
  let c ← context
  let c ← ofExcept c.enter
  modifyContext fun _ => c
  thenRestore action Context.leave

/-- Runs a computation on every member of a list, in order. -/
def each {α β : Type} (f : α → Lower β) : List α → Lower (List β)
  | [] => return []
  | a :: rest => do
    let b ← f a
    let bs ← each f rest
    return b :: bs

/-- An answer about a member or a type, which the session remembers. -/
def askMembers {α : Type} (ask : MemberMemo → α × MemberMemo) : Lower α :=
  modifyGet fun s =>
    let (answer, memory) := s.session.askMembers ask
    (answer, { s with session := { s.session with toMemory := memory } })

/-- A new temporary. -/
def newTemporary (type : Ty) : Lower Node := do
  let (v, table) := (← context).table.newTemporary type
  modifyTable fun _ => table
  return .ofVariable v

end Lower

/-- What the rules work with. -/
structure Lowerer where
  env : Env
  /-- The method that is lowered. -/
  method : Method
  /-- Lowers an expression without a cast to its expected type. -/
  raw : Cil.Expr → Lower Node

namespace Lowerer

/-- The core module. -/
def core (g : Lowerer) : Core :=
  g.env.core

/-- The static type of a node. -/
def typeOf (g : Lowerer) (n : Node) : Lower Ty :=
  return n.computedType g.core (← Lower.context).scope.retyping

/-- The variable for a variable of the method body. -/
def resolve (g : Lowerer) (v : Cil.Variable) : Lower Variable := do
  let (v, table) ← Lower.ofExcept ((← Lower.context).table.resolve g.env.types v)
  Lower.modifyTable fun _ => table
  return v

/-- The current type of a variable. -/
def variableType (v : Variable) : Lower Ty :=
  return (← Lower.context).scope.typeOf v

/-- An assignment to a location. -/
def assign (g : Lowerer) (target value : Node) : Lower Node := do
  Lower.ofExcept (Node.assign g.core (← Lower.context).scope.retyping target value)

/-- A compound assignment to a location. -/
def compoundAssign (g : Lowerer) (op : BinaryOp) (target value : Node) : Lower Node := do
  Lower.ofExcept (Node.compoundAssign g.core (← Lower.context).scope.retyping op target value)

/-- Records that an instruction was lost. -/
def warn (g : Lowerer) (e : Cil.Expr) (concern : Concern) (message : String) : Lower Unit :=
  modify fun s =>
    { s with
      session :=
        (s.session.write .warn (g.method.fullName ++ ": " ++ message)).record
          { severity := .warning
            concern := concern
            message := message
            method? := some g.method.fullName
            offset? := e.offset? } }

/-! ### Members and types -/

/-- The directive for a method. -/
def methodDirective? (g : Lowerer) (m : Method) : Lower (Option MethodDirective) :=
  Lower.askMembers (·.method? g.env.directives m)

/-- The directive for a field. -/
def fieldDirective? (g : Lowerer) (f : Field) : Lower (Option FieldDirective) :=
  Lower.askMembers (·.field? g.env.directives f)

/-- The directive for a type. -/
def typeDirective? (g : Lowerer) (t : Ty) : Lower (Option TypeDirective) :=
  Lower.askMembers (·.type? g.env.directives t)

/-- The property that a method is an accessor of. -/
def propertyOf? (g : Lowerer) (m : Method) : Lower (Option Property) :=
  Lower.askMembers (·.property? g.env.directives m)

/-- Whether calls of a method are dropped. -/
def ignores (g : Lowerer) (m : Method) : Lower Bool :=
  Lower.askMembers (·.ignores g.env.directives m)

/-! ### Parts of an expression -/

/-- An argument. -/
def argument (e : Cil.Expr) (index : Nat) : Lower Cil.Expr :=
  match e.arguments[index]? with
  | some a => return a
  | none => throw (.malformed (.argumentMissing e.code index))

/-- The variable operand. -/
def variableOperand (e : Cil.Expr) : Lower Cil.Variable :=
  match e.var? with
  | some v => return v
  | none => throw (.malformed (.operandRequired e.code .var))

/-- The field operand. -/
def fieldOperand (e : Cil.Expr) : Lower Field :=
  match e.field? with
  | some f => return f
  | none => throw (.malformed (.operandRequired e.code .field))

/-- The method operand. -/
def methodOperand (e : Cil.Expr) : Lower Method :=
  match e.method? with
  | some m => return m
  | none => throw (.malformed (.operandRequired e.code .method))

/-- The type operand. -/
def typeOperand (e : Cil.Expr) : Lower Ty :=
  match e.type? with
  | some t => return t
  | none => throw (.malformed (.operandRequired e.code .type))

end Lowerer

end ScriptLowering.Lowering
