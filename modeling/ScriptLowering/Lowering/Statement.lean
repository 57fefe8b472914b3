import ScriptLowering.Lowering.Rule

/-!
# Statements

A block is lowered statement by statement; then `assemble` puts every statement after a label into a
labeled block that reaches to the next label. The handlers of a protected region become one handler
that tests for their types in order, and ends by throwing the exception again unless a handler takes
everything. Storage is released in a `finally`, so that leaving the body early releases it too.
-/

namespace ScriptLowering.Lowering

open Script

/-- A lowered part of a block. -/
inductive Item where
  | label (name : String)
  | statement (node : Node)

/-- The statements before the first label, and a block for each label. -/
def gather : List Item → List Node × List Node
  | [] => ([], [])
  | .label name :: rest =>
    let (statements, blocks) := gather rest
    ([], .labeledBlock name statements :: blocks)
  | .statement node :: rest =>
    let (statements, blocks) := gather rest
    (if node.isEmpty then statements else node :: statements, blocks)

/-- The statements of a block. Statements that left nothing are dropped. -/
def assemble (items : List Item) : List Node :=
  (gather items).1 ++ (gather items).2

/-- A value as a statement. -/
def asStatement (value : Node) : Node :=
  if value.isEmpty || value.form.isStatement then value else .expressionStatement value

/-- Whether a handler of a type takes every exception. -/
def catchesEverything (h : Hierarchy) (t : Ty) : Bool :=
  h.isObject t || h.same t h.core.exception

/-- The block that throws the caught exception again. -/
def rethrowBlock : Node :=
  .block [.expressionStatement ⟨.rethrow, []⟩]

/-- Handlers as a chain of type tests. -/
def catchChain (h : Hierarchy) (caught : Node) (handlers : List (Ty × Node)) : Node :=
  handlers.foldr
    (fun handler rest =>
      if catchesEverything h handler.1 then handler.2
      else ⟨.ifElse, [⟨.typeTest handler.1, [caught]⟩, handler.2, rest]⟩)
    rethrowBlock

/-- A case of a switch. -/
def switchCase (values : List Int64) (body : List Node) : Node :=
  ⟨.switchCase values values.isEmpty, [.block body]⟩

/-- A protected region. -/
def guardedRegion (var? : Option Variable) (body handler finalizer fault : Node) : Node :=
  ⟨.tryCatch var?, [body, handler, finalizer, fault]⟩

/-- The release of pinned storage. -/
def unpin (v : Variable) : Node :=
  .expressionStatement ⟨.unpin, [.ofVariable v]⟩

namespace Lowerer

/-- Takes the next loop index. -/
def newLoop : Lower Nat := do
  let (index, c) := (← Lower.context).newLoop
  Lower.modifyContext fun _ => c
  return index

/-- A new variable for a caught exception. -/
def newCaught (g : Lowerer) : Lower Variable := do
  let (v, table) := (← Lower.context).table.newTemporary g.core.exception
  Lower.modifyTable fun _ => table
  return v

/-- The condition of a loop. -/
def loopCondition (g : Lowerer) : Option Cil.Expr → Lower Node
  | some e => g.condition e
  | none => return .boolean true

/-- The assignment of a caught exception to the variable of a handler. -/
def bindCaught (g : Lowerer) (caught : Variable) : Option Cil.Variable → Lower (List Node)
  | none => return []
  | some v => do
    let v ← g.resolve v
    let value := Node.changeType (.ofVariable caught) (← variableType v)
    return [.expressionStatement (← g.assign (.ofVariable v) value)]

/-- Pins storage: the pinned variable and the statement that pins it. -/
def pin (g : Lowerer) (p : Cil.Variable × Cil.Expr) : Lower (Variable × Node) := do
  let v ← g.resolve p.1
  let reference ← g.requireReference (← g.raw p.2) "fixed statement"
  let assignment ← g.assign (.ofVariable v) ⟨.pin, [reference]⟩
  return (v, .expressionStatement assignment)

/-- The one handler that stands for the handlers of a protected region, with the variable that it
catches. -/
def handler (g : Lowerer) (isMissing : Bool) (handlers : Variable → Lower (List (Ty × Node))) :
    Lower (Option Variable × Node) := do
  if isMissing then
    return (none, .empty)
  else
    let caught ← g.newCaught
    let handlers ← handlers caught
    return (some caught, .block [catchChain g.env.types (.ofVariable caught) handlers])

mutual

/-- Lowers a statement. -/
def item (g : Lowerer) : Cil.Stmt → Lower Item
  | .expression e => return .statement (asStatement (← g.expression e))
  | .label name => return .label name
  | .block body => return .statement (.block (assemble (← g.items body)))
  | .condition condition whenTrue whenFalse? => do
    let condition ← g.condition condition
    let yes ← g.items whenTrue
    let no ← g.optionalBlock whenFalse?
    return .statement ⟨.ifElse, [condition, .block (assemble yes), no]⟩
  | .loop condition? body => do
    let condition ← g.loopCondition condition?
    let index ← newLoop
    let body ← Lower.withTarget (.loop index) (g.items body)
    return .statement ⟨.whileLoop index, [condition, .block (assemble body)]⟩
  | .switch scrutinee cases => do
    let value ← g.expression scrutinee
    let cases ← Lower.withTarget .switch (g.cases cases)
    return .statement ⟨.switch, value :: cases⟩
  | .guarded body handlers finally? fault? =>
    Lower.withTarget .region do
      let body ← g.items body
      let (var?, handler) ← g.handler handlers.isEmpty fun caught => g.handlers caught handlers
      let finalizer ← g.optionalBlock finally?
      let fault ← g.optionalBlock fault?
      return .statement (guardedRegion var? (.block (assemble body)) handler finalizer fault)
  | .fixed pins body => do
    let pinned ← Lower.each g.pin pins
    let body ← g.items body
    let region := guardedRegion none (.block (assemble body)) .empty
      (.block (pinned.map fun p => unpin p.1)) .empty
    return .statement (.block (pinned.map (·.2) ++ [region]))
termination_by structural s => s

/-- Lowers statements one by one. -/
def items (g : Lowerer) : List Cil.Stmt → Lower (List Item)
  | [] => return []
  | s :: rest => do
    let first ← g.item s
    let others ← g.items rest
    return first :: others
termination_by structural ss => ss

/-- Lowers a block that may be missing. -/
def optionalBlock (g : Lowerer) : Option (List Cil.Stmt) → Lower Node
  | none => return .empty
  | some body => return .block (assemble (← g.items body))
termination_by structural body? => body?

/-- Lowers the cases of a switch. -/
def cases (g : Lowerer) : List Cil.Case → Lower (List Node)
  | [] => return []
  | .mk values body :: rest => do
    let body ← g.items body
    let others ← g.cases rest
    return switchCase values (assemble body) :: others
termination_by structural cs => cs

/-- Lowers handlers one by one, each with its type. -/
def handlers (g : Lowerer) (caught : Variable) : List Cil.Handler → Lower (List (Ty × Node))
  | [] => return []
  | .mk type var? body :: rest => do
    let binding ← g.bindCaught caught var?
    let body ← g.items body
    let others ← g.handlers caught rest
    return (type, .block (binding ++ assemble body)) :: others
termination_by structural hs => hs

end

/-- Lowers the statements of a block. -/
def statements (g : Lowerer) (body : List Cil.Stmt) : Lower (List Node) :=
  return assemble (← g.items body)

end Lowerer

end ScriptLowering.Lowering
