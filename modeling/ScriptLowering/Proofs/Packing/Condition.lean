import ScriptLowering.Lowering.Rule
import ScriptLowering.Proofs.Cil.Part
import ScriptLowering.Proofs.Lowering.Arising
import ScriptLowering.Proofs.Packing.Close

/-!
# When packed arrays do no harm

`Env.unpacked` is an environment without packed arrays: fields hold and methods return the arrays that
they are declared with. What a packed array can break in a method body is this (`PackingSafe` excludes
it):
-/

namespace ScriptLowering

/-! ### Directives without packed arrays -/

theorem lookup_map {α : Type} (key : String) (f : α → α) :
    ∀ entries : List (String × α),
      (entries.map fun entry => (entry.1, f entry.2)).lookup key = (entries.lookup key).map f
  | [] => rfl
  | entry :: rest => by
    rw [List.map_cons, List.lookup_cons, List.lookup_cons]
    split
    · rfl
    · exact lookup_map key f rest

theorem lookupLast_map {α : Type} (key : String) (f : α → α) (entries : List (String × α)) :
    lookupLast key (entries.map fun entry => (entry.1, f entry.2))
      = (lookupLast key entries).map f := by
  unfold lookupLast
  rw [← List.map_reverse]
  exact lookup_map key f entries.reverse

/-- The directive without a packed result. -/
def MethodDirective.unpacked (d : MethodDirective) : MethodDirective :=
  { d with packedReturn := false }

/-- The directive without a packed array. -/
def FieldDirective.unpacked (d : FieldDirective) : FieldDirective :=
  { d with isPackedArray := false }

namespace Directives

/-- The directives with no array packed. -/
def unpacked (d : Directives) : Directives :=
  { d with
    methods := d.methods.map fun entry => (entry.1, entry.2.unpacked)
    fields := d.fields.map fun entry => (entry.1, entry.2.unpacked) }

theorem method?_unpacked (d : Directives) (m : Method) :
    d.unpacked.method? m = (d.method? m).map MethodDirective.unpacked :=
  lookupLast_map m.fullName MethodDirective.unpacked d.methods

theorem field?_unpacked (d : Directives) (f : Field) :
    d.unpacked.field? f = (d.field? f).map FieldDirective.unpacked :=
  lookupLast_map f.fullName FieldDirective.unpacked d.fields

theorem replacement?_unpacked (d : Directives) (m : Method) :
    (d.unpacked.method? m).bind (·.replacement?) = (d.method? m).bind (·.replacement?) := by
  rw [method?_unpacked]
  cases d.method? m <;> rfl

theorem proxy?_unpacked (d : Directives) (m : Method) :
    (d.unpacked.method? m).bind (·.proxy?) = (d.method? m).bind (·.proxy?) := by
  rw [method?_unpacked]
  cases d.method? m <;> rfl

theorem packedReturn_unpacked (d : Directives) (m : Method) :
    (d.unpacked.method? m).any (·.packedReturn) = false := by
  rw [method?_unpacked]
  cases d.method? m <;> rfl

/-- Calls are dropped as before. -/
theorem ignores_unpacked (d : Directives) (m : Method) :
    ((d.unpacked.method? m).any (·.isIgnored) || (d.unpacked.type? m.declaringType).any (·.isIgnored))
      = ((d.method? m).any (·.isIgnored) || (d.type? m.declaringType).any (·.isIgnored)) := by
  rw [method?_unpacked]
  cases d.method? m <;> rfl

theorem ignoresField_unpacked (d : Directives) (f : Field) :
    (d.unpacked.field? f).any (·.isIgnored) = (d.field? f).any (·.isIgnored) := by
  rw [field?_unpacked]
  cases d.field? f <;> rfl

theorem isPackedArray_unpacked (d : Directives) (f : Field) :
    (d.unpacked.field? f).any (·.isPackedArray) = false := by
  rw [field?_unpacked]
  cases d.field? f <;> rfl

end Directives

namespace Lowering

/-- The environment with no array packed. -/
def Env.unpacked (env : Env) : Env :=
  { env with directives := env.directives.unpacked }

/-! ### Loads of packed fields -/

/-- The rules that may answer one of their arguments as it is. -/
def Rule.passesThrough : Rule → Bool
  | argument | nullableWrap | nullableValue | loadIndirect | negation | comparison .. | conversion ..
    => true
  | _ => false

/-- Whether an instruction loads a packed field. -/
def loadsPackedField (d : Directives) (rule : Rule) (operand : Cil.Operand) : Bool :=
  match rule, operand with
  | .loadField, .field f => (d.field? f).any (·.isPackedArray)
  | _, _ => false

mutual

/-- Whether the value of an expression may be the load of a packed field. -/
def loadsPacked (d : Directives) : Cil.Expr → Bool
  | ⟨code, operand, arguments, _, _, _⟩ =>
    loadsPackedField d (ruleOf code) operand
      || (ruleOf code).passesThrough && someLoadsPacked d arguments

/-- Whether the value of some expression may be the load of a packed field. -/
def someLoadsPacked (d : Directives) : List Cil.Expr → Bool
  | [] => false
  | e :: rest => loadsPacked d e || someLoadsPacked d rest

end

theorem loadsPacked_eq (d : Directives) (e : Cil.Expr) :
    loadsPacked d e = (loadsPackedField d (ruleOf e.code) e.operand
      || (ruleOf e.code).passesThrough && someLoadsPacked d e.arguments) := by
  obtain ⟨code, operand, arguments, expected?, inferred?, offset?⟩ := e
  rw [loadsPacked]

theorem someLoadsPacked_of_mem {d : Directives} {a : Cil.Expr} :
    ∀ {es : List Cil.Expr}, a ∈ es → loadsPacked d a = true → someLoadsPacked d es = true
  | e :: rest, ha, hloads => by
    rw [someLoadsPacked]
    rcases List.mem_cons.mp ha with rfl | hrest
    · rw [hloads, Bool.true_or]
    · rw [someLoadsPacked_of_mem hrest hloads, Bool.or_true]

theorem loadsPacked_ne_true {d : Directives} {a : Cil.Expr} {es : List Cil.Expr} (ha : a ∈ es)
    (hes : someLoadsPacked d es = false) (hloads : loadsPacked d a = true) : false = true := by
  rw [← hes]
  exact someLoadsPacked_of_mem ha hloads

/-! ### Method bodies -/

/-- Whether the form of its own that a method has depends on what its arguments are. -/
def looksInside (m : Method) : Bool :=
  m.name == "InitializeArray" && m.isDeclaredBy "System.Runtime.CompilerServices" "RuntimeHelpers"
    || m.name == "GetValueOrDefault" && m.declaringType.isNullable

/-- Whether an instruction takes packed arrays like other arrays. -/
def takesPacked (env : Env) (e : Cil.Expr) : Bool :=
  match ruleOf e.code with
  | .loadElement | .storeElement | .elementAddress | .storeIndirect => e.type?.isSome
  | .addressOf | .postIncrement => !someLoadsPacked env.directives e.arguments
  | .compoundAssignment =>
    e.arguments.all fun operation => !someLoadsPacked env.directives operation.arguments
  | .call =>
    !env.settings.earlyIntrinsics || e.method?.all fun m =>
      !looksInside (((env.directives.method? m).bind (·.proxy?)).getD m)
  | _ => true

end Lowering

open Lowering

/-- A method body in which packed arrays do no harm. -/
structure PackingSafe (env : Env) (body : Cil.MethodBody) : Prop where
  /-- Every instruction takes packed arrays. -/
  instructions : ∀ e, .expression e ∈ body.parts → takesPacked env e = true
  /-- No variable is named like a temporary. -/
  unreserved : ∀ v, .variable v ∈ body.parts → ∀ n, v.name ≠ Scope.temporaryName n
  /-- The receiver is no array. -/
  receiver : ∀ v, .variable v ∈ body.parts → v.role = .this → v.type.isArray = false
  /-- An array variable has one type. -/
  consistent : ∀ v u, .variable v ∈ body.parts → .variable u ∈ body.parts → v.name = u.name →
    v.type.isArray = true → env.types.same v.type u.type = true
  /-- What counts as a packed array is no address, number, nullable value or text. -/
  plain : ∀ t, Arises env [body] t → t.isPackedArray = true → env.types.Dull t

end ScriptLowering
