import ScriptLowering.Numeric.Primitive

/-!
# Named type definitions

A `Definition` is what a module declares: a class, a value type, an interface, an enumeration or a
delegate. Definitions carry a number that tells two declarations of one name apart; the base type
and the interfaces of a definition are kept under that number in a `Hierarchy`, since they are
added after the definition exists.
-/

namespace ScriptLowering

/-- The module that a type is declared in, as seen by one reference to it. -/
structure ModuleScope where
  /-- The name by which the reference calls the module. -/
  reference : String
  /-- The file name of the module. -/
  file : String
  deriving DecidableEq

namespace ModuleScope

/-- The scope of a module that is called by its file name. -/
def ofFile (file : String) : ModuleScope :=
  ⟨file, file⟩

/-- Drops the characters of `ending` from the end of `s`, if they are there. -/
def dropEnding? (ending s : List Char) : Option (List Char) :=
  if ending.isSuffixOf s then some (s.take (s.length - ending.length)) else none

/-- The file name in lower case, without the file extension of a module. Only the letters of ASCII
have a case here. -/
def normalized (m : ModuleScope) : String :=
  let lower := m.file.toList.map Char.toLower
  String.ofList
    (((dropEnding? ".dll".toList lower).orElse fun _ => dropEnding? ".exe".toList lower).getD lower)

/-- Two references lead to the same module when its normalized file names agree. -/
def sameModule (a b : ModuleScope) : Bool :=
  a.normalized == b.normalized

end ModuleScope

/-- The broad category of a definition. -/
inductive Category where
  /-- A reference type. -/
  | classType
  /-- A type with copy semantics. -/
  | valueType
  | interfaceType
  /-- An enumeration over an integer kind. -/
  | enumeration (underlying : Primitive)
  | delegateType
  deriving DecidableEq

namespace Category

/-- The categories with copy semantics. -/
def isValue : Category → Bool
  | valueType | enumeration _ => true
  | _ => false

end Category

/-- A named type. -/
structure Definition where
  /-- Tells definitions apart that share a name. -/
  id : Nat
  /-- The namespace, usually empty for nested types. -/
  namespaceName : String
  /-- The simple name, with the suffix for the number of generic parameters. -/
  name : String
  /-- The declaring module. -/
  scope : ModuleScope
  category : Category
  isSealed : Bool
  isAbstract : Bool
  /-- Whether the values of the enumeration combine as bits. -/
  isFlagsEnum : Bool
  /-- Whether the type is an array representation over a typed element buffer. -/
  isPackedArray : Bool
  /-- Names of the generic parameters. -/
  genericParameters : List String
  /-- Named constants of an enumeration. -/
  members : List (String × Int64)
  /-- The kind, for the primitive value types of the core module. -/
  primitive? : Option Primitive

namespace Definition

/-- A definition without attributes. -/
def plain (id : Nat) (namespaceName name : String) (scope : ModuleScope) (category : Category) :
    Definition where
  id := id
  namespaceName := namespaceName
  name := name
  scope := scope
  category := category
  isSealed := false
  isAbstract := false
  isFlagsEnum := false
  isPackedArray := false
  genericParameters := []
  members := []
  primitive? := none

/-- The name of a definition that is not nested. -/
def qualifiedName (d : Definition) : String :=
  if d.namespaceName.isEmpty then d.name else d.namespaceName ++ "." ++ d.name

/-- Whether two definitions have one name in one module. -/
def sameName (a b : Definition) : Bool :=
  a.name == b.name && a.namespaceName == b.namespaceName && a.scope.sameModule b.scope

/-- Whether the definition is called `name` in the namespace `namespaceName`. -/
def isNamed (d : Definition) (namespaceName name : String) : Bool :=
  d.namespaceName == namespaceName && d.name == name

end Definition

end ScriptLowering
