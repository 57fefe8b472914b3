import ScriptLowering.Ty.Basic

/-!
# Variables of a method

To `==` a variable is its number and its name. Its type can change after it was declared, when an
array variable turns out to hold a packed array; `Retyping` holds such changes, so that every use of
the variable in a tree sees them, and no other variable does, whatever its number and name are.
-/

namespace ScriptLowering.Script

/-- The role of a variable. -/
inductive VariableKind where
  | this
  | parameter
  | localVariable
  /-- Introduced by lowering. -/
  | temporary
  deriving DecidableEq

namespace VariableKind

/-- The name of a role. -/
def name : VariableKind → String
  | this => "This"
  | parameter => "Parameter"
  | localVariable => "Local"
  | temporary => "Temporary"

/-- The role with a name. -/
def ofName? (s : String) : Option VariableKind :=
  [this, parameter, localVariable, temporary].find? (·.name == s)

end VariableKind

/-- A named slot of a method. -/
structure Variable where
  id : Nat
  name : String
  kind : VariableKind
  /-- The type that the variable was declared with. -/
  declaredType : Ty
  /-- Tells the variable from every other one. Within a method the number does. -/
  serial : Nat := id

namespace Variable

instance : BEq Variable :=
  ⟨fun a b => a.id == b.id && a.name == b.name⟩

/-- Whether reads of the variable go through a reference. -/
def isReference (v : Variable) : Bool :=
  v.declaredType.isByRef

/-- Whether the variable is the receiver. -/
def isThis (v : Variable) : Bool :=
  v.kind == .this

/-- Whether the variable is a parameter or the receiver. -/
def isParameter (v : Variable) : Bool :=
  v.kind == .parameter || v.kind == .this

end Variable

/-- Types that variables were given after their declaration, by serial number, the latest first. -/
structure Retyping where
  changes : List (Nat × Ty)

namespace Retyping

/-- No changes. -/
def empty : Retyping :=
  ⟨[]⟩

/-- The current type of a variable. -/
def typeOf (r : Retyping) (v : Variable) : Ty :=
  (r.changes.lookup v.serial).getD v.declaredType

/-- Changes the type of a variable. -/
def retype (r : Retyping) (v : Variable) (t : Ty) : Retyping :=
  ⟨(v.serial, t) :: r.changes⟩

/-- The text of a variable in messages. -/
def debugText (r : Retyping) (v : Variable) : String :=
  "Variable(" ++ v.name ++ "#" ++ toString v.id ++ ": " ++ (r.typeOf v).fullName ++ ")"

end Retyping

end ScriptLowering.Script
