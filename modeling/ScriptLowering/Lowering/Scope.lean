import ScriptLowering.Error
import ScriptLowering.Ty.Equality

/-!
# The variables of a method

A `Scope` holds the variables of a method by role, and a new variable takes the next number. While
the method is lowered, variables are declared and found by name, in a `Table`. A lowered method has
only the lists and the two counters, and goes through the lists to see whether a name is in use. On
both sides temporaries are named by the counter, which skips names in use.
-/

namespace ScriptLowering.Lowering

open Script

/-- The variables of a method. -/
structure Scope where
  /-- The receiver, if there is one, and the parameters. -/
  parameters : List Variable
  locals : List Variable
  temporaries : List Variable
  /-- Types given after declaration. -/
  retyping : Retyping
  /-- The number of the next variable. -/
  nextId : Nat
  /-- The number in the name of the next temporary. -/
  nextTemporary : Nat

namespace Scope

/-- No variables. -/
def empty : Scope where
  parameters := []
  locals := []
  temporaries := []
  retyping := .empty
  nextId := 0
  nextTemporary := 0

/-- All variables: parameters, locals, temporaries. -/
def allVariables (s : Scope) : List Variable :=
  s.parameters ++ s.locals ++ s.temporaries

/-- The variable with a name. -/
def lookup? (s : Scope) (name : String) : Option Variable :=
  s.allVariables.find? (·.name == name)

/-- The current type of a variable. -/
def typeOf (s : Scope) (v : Variable) : Ty :=
  s.retyping.typeOf v

/-- Changes the type of a variable. -/
def retype (s : Scope) (v : Variable) (t : Ty) : Scope :=
  { s with retyping := s.retyping.retype v t }

/-- Adds a variable to the list of its role. -/
def insert (s : Scope) (v : Variable) : Scope :=
  match v.kind with
  | .this | .parameter => { s with parameters := s.parameters ++ [v] }
  | .localVariable => { s with locals := s.locals ++ [v] }
  | .temporary => { s with temporaries := s.temporaries ++ [v] }

/-- Adds a variable under the next number. -/
def add (s : Scope) (name : String) (kind : VariableKind) (type : Ty) : Variable × Scope :=
  let v : Variable := { id := s.nextId, name, kind, declaredType := type }
  (v, { s.insert v with nextId := s.nextId + 1 })

/-- The name of a temporary. -/
def temporaryName (number : Nat) : String :=
  "$temp" ++ toString number

/-- The first number from `number` on whose name is not taken, within `n` tries. -/
def freeNumber (taken : String → Bool) : Nat → Nat → Nat
  | 0, number => number
  | n + 1, number =>
    if taken (temporaryName number) then freeNumber taken n (number + 1) else number

/-- Adds a temporary under a number, after which the names of temporaries go on. -/
def addTemporary (s : Scope) (number : Nat) (type : Ty) : Variable × Scope :=
  let (v, s) := s.add (temporaryName number) .temporary type
  (v, { s with nextTemporary := number + 1 })

/-- A new temporary of a lowered method, under a name that no variable has. As many names can be
taken as there are variables, so that many tries find a free one. -/
def newTemporary (s : Scope) (type : Ty) : Variable × Scope :=
  s.addTemporary
    (freeNumber (fun name => (s.lookup? name).isSome) s.allVariables.length s.nextTemporary) type

/-- An added variable stands among the others. -/
theorem mem_allVariables_add {s : Scope} {name : String} {kind : VariableKind} {type : Ty}
    {v : Variable} : v ∈ (s.add name kind type).2.allVariables
      ↔ v = (s.add name kind type).1 ∨ v ∈ s.allVariables := by
  cases kind <;> simp [add, insert, allVariables] <;> grind

end Scope

/-! ### Variables by name -/

/-- The variables of a method that is being lowered. -/
structure Table extends Scope where
  /-- The variable of each name. -/
  byName : List (String × Variable)
  /-- A name stands for one of the variables, which has this name. -/
  listed : ∀ {name : String} {v : Variable}, byName.lookup name = some v →
    v ∈ toScope.allVariables ∧ v.name = name
  /-- Every variable has a name that stands for one. -/
  named : ∀ {v : Variable}, v ∈ toScope.allVariables → byName.lookup v.name ≠ none

namespace Table

/-- No variables. -/
def empty : Table where
  toScope := .empty
  byName := []
  listed := nofun
  named := nofun

/-- The variable with a name. -/
def find? (t : Table) (name : String) : Option Variable :=
  t.byName.lookup name

/-- Changes the type of a variable. -/
def retype (t : Table) (v : Variable) (type : Ty) : Table :=
  { t with toScope := t.toScope.retype v type, listed := t.listed, named := t.named }

/-- Adds a variable under the next number. -/
def add (t : Table) (name : String) (kind : VariableKind) (type : Ty) : Variable × Table :=
  let v := (t.toScope.add name kind type).1
  (v, { toScope := (t.toScope.add name kind type).2
        byName := (name, v) :: t.byName
        listed := by
          intro name' w hw
          rw [List.lookup_cons] at hw
          split at hw
          · next hname =>
            cases hw
            exact ⟨Scope.mem_allVariables_add.mpr (.inl rfl), (beq_iff_eq.mp hname).symm⟩
          · exact ⟨Scope.mem_allVariables_add.mpr (.inr (t.listed hw).1), (t.listed hw).2⟩
        named := by
          intro w hw
          rw [List.lookup_cons]
          split
          · nofun
          · next hname =>
            rcases Scope.mem_allVariables_add.mp hw with rfl | hold
            · exact absurd (beq_iff_eq.mpr rfl) (Bool.eq_false_iff.mp hname)
            · exact t.named hold })

/-- The variable with a name, declared if it is new. A variable met again keeps its type, which has
to be the same unless it became a packed array. -/
def declare (t : Table) (h : Hierarchy) (name : String) (kind : VariableKind) (type : Ty) :
    Except Error (Variable × Table) :=
  match t.find? name with
  | some existing =>
    let current := t.typeOf existing
    if !h.same current type && !current.isPackedArray then
      .error (.variableRedeclared name current type)
    else
      .ok (existing, t)
  | none => .ok (t.add name kind type)

/-- The role of a variable of a method body. -/
def kindOfRole : Cil.Role → VariableKind
  | .this => .this
  | .parameter _ => .parameter
  | .localSlot _ => .localVariable
  | .generated => .temporary

/-- The variable for a variable of a method body. -/
def resolve (t : Table) (h : Hierarchy) (v : Cil.Variable) : Except Error (Variable × Table) :=
  t.declare h v.name (kindOfRole v.role) v.type

/-- A new temporary, under a name that stands for no variable. That many tries find a free one,
because no more names can be taken. -/
def newTemporary (t : Table) (type : Ty) : Variable × Table :=
  let number :=
    Scope.freeNumber (fun name => (t.find? name).isSome) t.byName.length t.nextTemporary
  let (v, t) := t.add (Scope.temporaryName number) .temporary type
  (v, { t with nextTemporary := number + 1, listed := t.listed, named := t.named })

end Table

end ScriptLowering.Lowering
