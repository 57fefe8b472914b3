import ScriptLowering.Cil.Opcode
import ScriptLowering.Member.Basic
import ScriptLowering.Numeric.Shortest
import ScriptLowering.Text.Quoted

/-!
# Decompiled method bodies

A method body arrives as trees: stack operations are folded into nested expressions, and control
flow is recovered into blocks, conditions, loops, switches and protected regions. An expression
carries the type that its consumer expects and the type that was inferred for it; both are hints.
-/

namespace ScriptLowering.Cil

/-- The role of a variable. -/
inductive Role where
  | this
  | parameter (position : Nat)
  | localSlot (slot : Nat)
  /-- Introduced by decompilation. -/
  | generated
  deriving DecidableEq

/-- A variable of the body. -/
structure Variable where
  /-- Unique within the method. -/
  name : String
  type : Ty
  role : Role
  /-- Whether the variable is a pinned local. -/
  isPinned : Bool

/-- The operand of an instruction. -/
inductive Operand where
  | none
  | int32 (value : Int32)
  | int64 (value : Int64)
  | float32 (value : Single)
  | float64 (value : Double)
  /-- A decimal constant as text. -/
  | decimal (text : String)
  | string (text : String)
  | var (v : Variable)
  | field (field : Field)
  | method (method : Method)
  | type (type : Ty)
  | label (name : String)

/-- An expression. -/
structure Expr where
  code : Opcode
  operand : Operand
  /-- Folded arguments, in stack order. -/
  arguments : List Expr
  /-- The type that the consumer expects. -/
  expected? : Option Ty
  /-- The type inferred for the value. -/
  inferred? : Option Ty
  /-- The offset of the instruction. -/
  offset? : Option Nat

namespace Expr

/-- An expression without annotations. -/
def plain (code : Opcode) (operand : Operand) (arguments : List Expr) : Expr where
  code := code
  operand := operand
  arguments := arguments
  expected? := none
  inferred? := none
  offset? := none

/-- The variable operand. -/
def var? (e : Expr) : Option Variable :=
  match e.operand with
  | .var v => some v
  | _ => none

/-- The field operand. -/
def field? (e : Expr) : Option Field :=
  match e.operand with
  | .field f => some f
  | _ => none

/-- The method operand. -/
def method? (e : Expr) : Option Method :=
  match e.operand with
  | .method m => some m
  | _ => none

/-- The type operand. -/
def type? (e : Expr) : Option Ty :=
  match e.operand with
  | .type t => some t
  | _ => none

/-- The label operand. -/
def label? (e : Expr) : Option String :=
  match e.operand with
  | .label l => some l
  | _ => none

end Expr

mutual

/-- A statement. -/
inductive Stmt where
  /-- An expression evaluated for its effect. -/
  | expression (e : Expr)
  /-- A jump target. -/
  | label (name : String)
  | block (body : List Stmt)
  | condition (condition : Expr) (whenTrue : List Stmt) (whenFalse? : Option (List Stmt))
  /-- A loop, without a condition one that only a jump leaves. -/
  | loop (condition? : Option Expr) (body : List Stmt)
  | switch (scrutinee : Expr) (cases : List Case)
  /-- A protected region. -/
  | guarded (body : List Stmt) (handlers : List Handler) (finally? : Option (List Stmt))
      (fault? : Option (List Stmt))
  /-- Pins storage for the time of its body. -/
  | fixed (pins : List (Variable × Expr)) (body : List Stmt)

/-- A case of a switch; without values it is the default case. -/
inductive Case where
  | mk (values : List Int64) (body : List Stmt)

/-- A typed handler, with the variable that receives the exception. -/
inductive Handler where
  | mk (type : Ty) (var? : Option Variable) (body : List Stmt)

end

/-- The body of a method. -/
structure MethodBody where
  method : Method
  /-- The receiver of an instance method. -/
  this? : Option Variable
  parameters : List Variable
  locals : List Variable
  statements : List Stmt

namespace MethodBody

/-- The receiver of a method: value types are passed by reference. -/
def receiver? (m : Method) : Option Variable :=
  if m.isStatic then
    none
  else
    some
      { name := "this"
        type := if m.declaringType.isValueType then .byRef m.declaringType else m.declaringType
        role := .this
        isPinned := false }

/-- A body with the receiver that its method has. -/
def ofMethod (method : Method) (parameters locals : List Variable) (statements : List Stmt) :
    MethodBody where
  method := method
  this? := receiver? method
  parameters := parameters
  locals := locals
  statements := statements

end MethodBody

/-! ### Text -/

namespace Operand

/-- The operand after an opcode. -/
def text : Operand → String
  | none => ""
  | int32 v => " " ++ toString v.toInt
  | int64 v => " " ++ toString v.toInt ++ "L"
  | float32 v => " " ++ FloatLayout.instruction.single v ++ "f"
  | float64 v => " " ++ FloatLayout.instruction.double v
  | decimal s => " " ++ s ++ "m"
  | string s => " " ++ Text.quoted s
  | var v => " " ++ v.name
  | field f => " " ++ f.name
  | method m => " " ++ m.name
  | type t => " " ++ t.fullName
  | label l => " " ++ l

end Operand

mutual

/-- The text of an expression. -/
def Expr.text : Expr → String
  | ⟨code, operand, [], _, _, _⟩ => code.name ++ operand.text
  | ⟨code, operand, argument :: rest, _, _, _⟩ =>
    code.name ++ operand.text ++ "(" ++ argument.text ++ Expr.textList rest ++ ")"

/-- The text of the arguments after the first. -/
def Expr.textList : List Expr → String
  | [] => ""
  | e :: rest => ", " ++ e.text ++ Expr.textList rest

end

namespace Role

/-- The text of a role in messages. -/
def debugText : Role → String
  | this => "This"
  | parameter n => "Parameter(" ++ toString n ++ ")"
  | localSlot n => "Local(" ++ toString n ++ ")"
  | generated => "Generated"

end Role

namespace Variable

/-- The text of a variable in messages. -/
def debugText (v : Variable) : String :=
  "ILVariable \x7b name: " ++ Text.quoted v.name ++ ", ty: TypeDescriptor(" ++ v.type.fullName
    ++ "), kind: " ++ v.role.debugText ++ ", is_pinned: " ++ toString v.isPinned ++ " \x7d"

end Variable

namespace Operand

/-- The text of an operand in messages. -/
def debugText : Operand → String
  | none => "None"
  | int32 v => "Int32(" ++ toString v.toInt ++ ")"
  | int64 v => "Int64(" ++ toString v.toInt ++ ")"
  | float32 v => "Float32(" ++ FloatLayout.script.single v ++ ")"
  | float64 v => "Float64(" ++ FloatLayout.script.double v ++ ")"
  | decimal s => "Decimal(" ++ Text.quoted s ++ ")"
  | string s => "String(" ++ Text.quoted s ++ ")"
  | var v => "Variable(" ++ v.debugText ++ ")"
  | field f => "Field(" ++ f.debugText ++ ")"
  | method m => "Method(" ++ m.debugText ++ ")"
  | type t => "Type(TypeDescriptor(" ++ t.fullName ++ "))"
  | label l => "Label(" ++ Text.quoted l ++ ")"

end Operand

end ScriptLowering.Cil
