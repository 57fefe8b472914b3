import ScriptLowering.Ty.Basic

/-!
# Core types

The types that lowering knows by themselves: the universal object type, the primitives, the
nullable wrapper, the reflection handles, the packed array representation and the collection
interfaces that arrays implement. They are fixed by the module that declares them, so a `Core` is
only that module, and each core type is a function of it.
-/

namespace ScriptLowering

/-- The core module. -/
structure Core where
  /-- The scope of the core module. -/
  scope : ModuleScope

namespace Core

/-- The core module under its usual name. -/
def standard : Core :=
  ⟨.ofFile "mscorlib"⟩

/-- A reference type of the namespace `System`. -/
def reference (c : Core) (id : Nat) (name : String) : Definition :=
  .plain id "System" name c.scope .classType

/-- A value type of the namespace `System`. -/
def value (c : Core) (id : Nat) (name : String) : Definition :=
  .plain id "System" name c.scope .valueType

/-- The universal object type. -/
def object (c : Core) : Ty :=
  .named (c.reference 0 "Object")

/-- The base of all value types. -/
def valueType (c : Core) : Ty :=
  .named { c.reference 1 "ValueType" with isAbstract := true }

/-- The base of all enumerations. -/
def enumBase (c : Core) : Ty :=
  .named { c.reference 2 "Enum" with isAbstract := true }

/-- The base of all arrays. -/
def arrayBase (c : Core) : Ty :=
  .named { c.reference 3 "Array" with isAbstract := true }

/-- Text. -/
def string (c : Core) : Ty :=
  .named { c.reference 4 "String" with isSealed := true }

/-- The result type of what has no result. -/
def void (c : Core) : Ty :=
  .named (c.value 5 "Void")

/-- Decimal numbers. -/
def decimal (c : Core) : Ty :=
  .named (c.value 6 "Decimal")

/-- The base of delegates. -/
def delegate (c : Core) : Ty :=
  .named { c.reference 7 "Delegate" with isAbstract := true }

/-- The base of delegates that call several methods. -/
def multicastDelegate (c : Core) : Ty :=
  .named { c.reference 8 "MulticastDelegate" with isAbstract := true }

/-- The nullable wrapper, not applied. -/
def nullable (c : Core) : Ty :=
  .named { c.value 9 Ty.nullableName with genericParameters := ["T"] }

/-- Type objects. -/
def type (c : Core) : Ty :=
  .named { c.reference 10 "Type" with isAbstract := true }

/-- The base of exceptions. -/
def exception (c : Core) : Ty :=
  .named (c.reference 11 "Exception")

/-- Handles of types. -/
def typeHandle (c : Core) : Ty :=
  .named (c.value 12 "RuntimeTypeHandle")

/-- Handles of fields. -/
def fieldHandle (c : Core) : Ty :=
  .named (c.value 13 "RuntimeFieldHandle")

/-- Handles of methods. -/
def methodHandle (c : Core) : Ty :=
  .named (c.value 14 "RuntimeMethodHandle")

/-- The value type of a primitive kind. -/
def primitive (c : Core) (kind : Primitive) : Ty :=
  .named { c.value (15 + kind.position) kind.name with primitive? := some kind }

/-- Truth values. -/
def boolean (c : Core) : Ty :=
  c.primitive .boolean

/-- 32-bit integers. -/
def int32 (c : Core) : Ty :=
  c.primitive .i4

/-- Native integers. -/
def nativeInt (c : Core) : Ty :=
  c.primitive .i

/-- The namespace and module of the script runtime. -/
def runtimeName : String :=
  "Dotscript.Runtime"

/-- The packed array representation, not applied. -/
def packedArray : Ty :=
  .named
    { Definition.plain 29 runtimeName "PackedArray`1" (.ofFile runtimeName) .classType with
      genericParameters := ["T"]
      isSealed := true
      isPackedArray := true }

/-- The namespace of the collection interfaces. -/
def collectionNamespace : String :=
  "System.Collections.Generic"

/-- The collection interfaces that every vector implements, not applied. -/
inductive Collection where
  | enumerable
  | collection
  | list
  | readOnlyCollection
  | readOnlyList
  deriving DecidableEq

/-- The collection interfaces in table order. -/
def Collection.all : List Collection :=
  [.enumerable, .collection, .list, .readOnlyCollection, .readOnlyList]

/-- The simple name of a collection interface. -/
def Collection.name : Collection → String
  | enumerable => "IEnumerable`1"
  | collection => "ICollection`1"
  | list => "IList`1"
  | readOnlyCollection => "IReadOnlyCollection`1"
  | readOnlyList => "IReadOnlyList`1"

/-- The collection interface that another one extends. -/
def Collection.parent? : Collection → Option Collection
  | enumerable => none
  | collection => some enumerable
  | list => some collection
  | readOnlyCollection => some enumerable
  | readOnlyList => some readOnlyCollection

/-- The full name of a collection interface. -/
def Collection.fullName (i : Collection) : String :=
  collectionNamespace ++ "." ++ i.name

/-- The type of a collection interface, not applied. -/
def collectionInterface (c : Core) (i : Collection) : Ty :=
  .named
    { Definition.plain (30 + Collection.all.idxOf i) collectionNamespace i.name c.scope
        .interfaceType with
      genericParameters := ["T"] }

/-- The nullable form of a type. -/
def nullableOf (c : Core) (argument : Ty) : Ty :=
  .inst c.nullable [argument]

/-- The packed form of a vector of `element`. -/
def packedArrayOf (element : Ty) : Ty :=
  .inst packedArray [element]

/-- Every core type, by increasing definition number. -/
def all (c : Core) : List Ty :=
  [c.object, c.valueType, c.enumBase, c.arrayBase, c.string, c.void, c.decimal, c.delegate,
    c.multicastDelegate, c.nullable, c.type, c.exception, c.typeHandle, c.fieldHandle,
    c.methodHandle]
    ++ Primitive.all.map c.primitive ++ [packedArray] ++ Collection.all.map c.collectionInterface

/-- The short names of the core types that are no primitives, in the order of `all`. -/
def shortNames : List String :=
  ["object", "valuetype", "enum", "array", "string", "void", "decimal", "delegate", "multicast",
    "nullable", "type", "exception", "typehandle", "fieldhandle", "methodhandle"]

/-- The core type with a short name; primitives go by their codes. -/
def ofShortName? (c : Core) (s : String) : Option Ty :=
  ((shortNames.zip c.all).lookup s).orElse fun _ => (Primitive.ofCode? s).map c.primitive

end Core

end ScriptLowering
