import ScriptLowering.Ty.Hierarchy

/-!
# The registry of types

A `TypeSystem` keeps the first type registered under each full name, an index by simple name, and
the hierarchy of the definitions. Registered types are `Descriptor`s: a type with a serial number,
so that registering the very descriptor that is stored can be told from registering another one of
the same name. The serial number of a definition is its definition number.
-/

namespace ScriptLowering

/-- A type as an object of its own. -/
structure Descriptor where
  serial : Nat
  type : Ty

/-- The types that a program knows. -/
structure TypeSystem where
  /-- The stored descriptors by full name. -/
  registered : List (String × Descriptor)
  /-- Types by simple name, in order of registration. -/
  index : List (String × Ty)
  hierarchy : Hierarchy
  /-- The next unused serial number. -/
  nextSerial : Nat

namespace TypeSystem

/-- The core module. -/
def core (s : TypeSystem) : Core :=
  s.hierarchy.core

/-- The type stored under a full name. -/
def get? (s : TypeSystem) (name : String) : Option Descriptor :=
  s.registered.lookup name

/-- The types with a simple name, in order of registration. -/
def getByName (s : TypeSystem) (name : String) : List Ty :=
  (s.index.filter (·.1 == name)).map (·.2)

/-- The number of stored types. -/
def size (s : TypeSystem) : Nat :=
  s.registered.length

/-- Lists a descriptor under the simple name of its definition. -/
def addToIndex (s : TypeSystem) (d : Descriptor) : TypeSystem :=
  match d.type.definition? with
  | some definition => { s with index := s.index ++ [(definition.name, d.type)] }
  | none => s

/-- Stores a descriptor unless its full name is taken, and answers what is stored under that name.
Whenever that is the given descriptor, it is listed under its simple name. -/
def register (s : TypeSystem) (d : Descriptor) : TypeSystem × Descriptor :=
  match s.get? d.type.fullName with
  | some stored => (if stored.serial == d.serial then s.addToIndex d else s, stored)
  | none =>
    ({ s with registered := s.registered ++ [(d.type.fullName, d)] }.addToIndex d, d)

/-- Takes the next serial number. -/
def freshSerial (s : TypeSystem) : TypeSystem × Nat :=
  ({ s with nextSerial := s.nextSerial + 1 }, s.nextSerial)

/-- Registers a new definition, built from its number, and answers what is stored under its
name. -/
def define (s : TypeSystem) (build : Nat → Ty) : TypeSystem × Ty :=
  let (s, serial) := s.freshSerial
  let (s, stored) := s.register ⟨serial, build serial⟩
  (s, stored.type)

/-- Sets the base type of a type; `none` for types without a definition. -/
def setBase (s : TypeSystem) (t base : Ty) : TypeSystem × Option Bool :=
  match t.definition? with
  | some d =>
    let (hierarchy, isNew) := s.hierarchy.setBase d base
    ({ s with hierarchy := hierarchy }, some isNew)
  | none => (s, none)

/-- Adds an interface to a type and answers how many it has then; `none` for types without a
definition. -/
def addInterface (s : TypeSystem) (t i : Ty) : TypeSystem × Option Nat :=
  match t.definition? with
  | some d =>
    let hierarchy := s.hierarchy.addInterface d i
    ({ s with hierarchy := hierarchy }, some (hierarchy.declaredInterfaces d).length)
  | none => (s, none)

/-- The type system with the core types of a module and nothing else. -/
def ofCore (c : Core) : TypeSystem :=
  let empty : TypeSystem :=
    { registered := []
      index := []
      hierarchy := .ofCore c
      nextSerial := c.all.length }
  c.all.foldl
    (fun s t =>
      match t.definition? with
      | some d => (s.register ⟨d.id, t⟩).1
      | none => s)
    empty

/-- The collection interfaces that are stored under their names. -/
def arrayInterfaces (s : TypeSystem) : List Ty :=
  Core.Collection.all.filterMap fun i => (s.get? i.fullName).map (·.type)

end TypeSystem

end ScriptLowering
