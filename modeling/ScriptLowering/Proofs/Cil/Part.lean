import ScriptLowering.Cil.Body

/-!
# Variables and expressions of a method body

The variables and the expressions that occur anywhere in a method body, with all their
subexpressions.
-/

namespace ScriptLowering.Cil

/-- A variable or an expression of a method body. -/
inductive Part where
  | variable (v : Variable)
  | expression (e : Expr)

/-- A part that is a variable. -/
def Part.variable? : Part → Option Variable
  | .variable v => some v
  | .expression _ => none

/-- A part that is an expression. -/
def Part.expression? : Part → Option Expr
  | .variable _ => none
  | .expression e => some e

/-- A variable as a part. -/
def Variable.parts (v : Variable) : List Part :=
  [.variable v]

/-- The variable of an operand. -/
def Operand.parts : Operand → List Part
  | var v => v.parts
  | _ => []

mutual

/-- An expression with its variables and subexpressions. -/
def Expr.parts : Expr → List Part
  | ⟨code, operand, arguments, expected?, inferred?, offset?⟩ =>
    .expression ⟨code, operand, arguments, expected?, inferred?, offset?⟩
      :: (operand.parts ++ Expr.partsList arguments)

/-- The variables and expressions in some expressions. -/
def Expr.partsList : List Expr → List Part
  | [] => []
  | e :: rest => e.parts ++ Expr.partsList rest

end

mutual

/-- The variables and expressions in a statement. -/
def Stmt.parts : Stmt → List Part
  | .expression e => e.parts
  | .label _ => []
  | .block body => Stmt.partsList body
  | .condition condition whenTrue whenFalse? =>
    condition.parts ++ Stmt.partsList whenTrue ++ Stmt.partsOption whenFalse?
  | .loop condition? body => condition?.toList.flatMap Expr.parts ++ Stmt.partsList body
  | .switch scrutinee cases => scrutinee.parts ++ Case.partsList cases
  | .guarded body handlers finally? fault? =>
    Stmt.partsList body ++ Handler.partsList handlers ++ Stmt.partsOption finally?
      ++ Stmt.partsOption fault?
  | .fixed pins body =>
    (pins.flatMap fun p => p.1.parts ++ p.2.parts) ++ Stmt.partsList body
termination_by structural s => s

/-- The variables and expressions in some statements. -/
def Stmt.partsList : List Stmt → List Part
  | [] => []
  | s :: rest => s.parts ++ Stmt.partsList rest
termination_by structural ss => ss

/-- The variables and expressions in a block that may be missing. -/
def Stmt.partsOption : Option (List Stmt) → List Part
  | none => []
  | some body => Stmt.partsList body
termination_by structural body? => body?

/-- The variables and expressions in the cases of a switch. -/
def Case.partsList : List Case → List Part
  | [] => []
  | .mk _ body :: rest => Stmt.partsList body ++ Case.partsList rest
termination_by structural cs => cs

/-- The variables and expressions in handlers. -/
def Handler.partsList : List Handler → List Part
  | [] => []
  | .mk _ var? body :: rest =>
    var?.toList.flatMap Variable.parts ++ Stmt.partsList body ++ Handler.partsList rest
termination_by structural hs => hs

end

/-- The variables and expressions of a method body. -/
def MethodBody.parts (b : MethodBody) : List Part :=
  (b.this?.toList ++ b.parameters ++ b.locals).flatMap Variable.parts ++ Stmt.partsList b.statements

theorem Expr.mem_partsList {x : Part} {a : Expr} :
    ∀ {es : List Expr}, a ∈ es → x ∈ a.parts → x ∈ Expr.partsList es
  | e :: rest, ha, hx => by
    unfold Expr.partsList
    rcases List.mem_cons.mp ha with rfl | hrest
    · exact List.mem_append_left _ hx
    · exact List.mem_append_right _ (Expr.mem_partsList hrest hx)

variable {e : Expr}

theorem Expr.mem_parts_argument {a : Expr} {x : Part} (ha : a ∈ e.arguments) (hx : x ∈ a.parts) :
    x ∈ e.parts := by
  obtain ⟨code, operand, arguments, expected?, inferred?, offset?⟩ := e
  rw [Expr.parts]
  exact List.mem_cons_of_mem _ (List.mem_append_right _ (Expr.mem_partsList ha hx))

theorem Expr.mem_parts_self (e : Expr) : .expression e ∈ e.parts := by
  obtain ⟨code, operand, arguments, expected?, inferred?, offset?⟩ := e
  rw [Expr.parts]
  exact List.mem_cons_self

/-! ### Operands -/

theorem Expr.operand_of_var? {v : Variable} (h : e.var? = some v) : e.operand = .var v := by
  unfold Expr.var? at h
  split at h
  · next hoperand => rw [hoperand, Option.some.inj h]
  · cases h

theorem Expr.operand_of_field? {f : Field} (h : e.field? = some f) : e.operand = .field f := by
  unfold Expr.field? at h
  split at h
  · next hoperand => rw [hoperand, Option.some.inj h]
  · cases h

theorem Expr.operand_of_method? {m : Method} (h : e.method? = some m) : e.operand = .method m := by
  unfold Expr.method? at h
  split at h
  · next hoperand => rw [hoperand, Option.some.inj h]
  · cases h

theorem Expr.operand_of_type? {t : Ty} (h : e.type? = some t) : e.operand = .type t := by
  unfold Expr.type? at h
  split at h
  · next hoperand => rw [hoperand, Option.some.inj h]
  · cases h

theorem Expr.mem_parts_var {v : Variable} (h : e.var? = some v) : .variable v ∈ e.parts := by
  have hoperand := Expr.operand_of_var? h
  obtain ⟨code, operand, arguments, expected?, inferred?, offset?⟩ := e
  cases hoperand
  rw [Expr.parts]
  exact List.mem_cons_of_mem _ (List.mem_append_left _ List.mem_cons_self)

end ScriptLowering.Cil
