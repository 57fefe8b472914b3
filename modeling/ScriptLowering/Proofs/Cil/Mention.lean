import ScriptLowering.Cil.Body
import ScriptLowering.Proofs.Script.TypesIn

/-!
# What a method body mentions

The types and methods that occur in a method body: in signatures, variables, operands, annotations
and handlers.
-/

namespace ScriptLowering.Cil

/-- Something that a method body mentions. -/
inductive Mention where
  | type (t : Ty)
  /-- A method as the operand of an instruction. -/
  | method (m : Method)

/-- What a variable mentions. -/
def Variable.mentions (v : Variable) : List Mention :=
  [.type v.type]

/-- What an operand mentions. -/
def Operand.mentions : Operand → List Mention
  | var v => v.mentions
  | field f => f.types.map .type
  | method m => [.method m]
  | type t => [.type t]
  | _ => []

mutual

/-- What an expression mentions. -/
def Expr.mentions : Expr → List Mention
  | ⟨_, operand, arguments, expected?, inferred?, _⟩ =>
    operand.mentions ++ (expected?.toList ++ inferred?.toList).map .type
      ++ Expr.mentionsList arguments

/-- What some expressions mention. -/
def Expr.mentionsList : List Expr → List Mention
  | [] => []
  | e :: rest => e.mentions ++ Expr.mentionsList rest

end

mutual

/-- What a statement mentions. -/
def Stmt.mentions : Stmt → List Mention
  | .expression e => e.mentions
  | .label _ => []
  | .block body => Stmt.mentionsList body
  | .condition condition whenTrue whenFalse? =>
    condition.mentions ++ Stmt.mentionsList whenTrue ++ Stmt.mentionsOption whenFalse?
  | .loop condition? body => condition?.toList.flatMap Expr.mentions ++ Stmt.mentionsList body
  | .switch scrutinee cases => scrutinee.mentions ++ Case.mentionsList cases
  | .guarded body handlers finally? fault? =>
    Stmt.mentionsList body ++ Handler.mentionsList handlers ++ Stmt.mentionsOption finally?
      ++ Stmt.mentionsOption fault?
  | .fixed pins body =>
    (pins.flatMap fun p => p.1.mentions ++ p.2.mentions) ++ Stmt.mentionsList body
termination_by structural s => s

/-- What some statements mention. -/
def Stmt.mentionsList : List Stmt → List Mention
  | [] => []
  | s :: rest => s.mentions ++ Stmt.mentionsList rest
termination_by structural ss => ss

/-- What a block that may be missing mentions. -/
def Stmt.mentionsOption : Option (List Stmt) → List Mention
  | none => []
  | some body => Stmt.mentionsList body
termination_by structural body? => body?

/-- What the cases of a switch mention. -/
def Case.mentionsList : List Case → List Mention
  | [] => []
  | .mk _ body :: rest => Stmt.mentionsList body ++ Case.mentionsList rest
termination_by structural cs => cs

/-- What handlers mention. -/
def Handler.mentionsList : List Handler → List Mention
  | [] => []
  | .mk type var? body :: rest =>
    .type type :: (var?.toList.flatMap Variable.mentions ++ Stmt.mentionsList body)
      ++ Handler.mentionsList rest
termination_by structural hs => hs

end

/-- What a method body mentions. -/
def MethodBody.mentions (b : MethodBody) : List Mention :=
  b.method.types.map .type
    ++ (b.this?.toList ++ b.parameters ++ b.locals).flatMap Variable.mentions
    ++ Stmt.mentionsList b.statements

theorem Expr.mem_mentionsList {x : Mention} {a : Expr} :
    ∀ {es : List Expr}, a ∈ es → x ∈ a.mentions → x ∈ Expr.mentionsList es
  | e :: rest, ha, hx => by
    unfold Expr.mentionsList
    rcases List.mem_cons.mp ha with rfl | hrest
    · exact List.mem_append_left _ hx
    · exact List.mem_append_right _ (Expr.mem_mentionsList hrest hx)

end ScriptLowering.Cil
