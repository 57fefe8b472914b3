import ScriptLowering.Member.Basic
import ScriptLowering.Numeric.Shortest
import ScriptLowering.Text.Hex
import ScriptLowering.Text.Quoted
import ScriptLowering.Ty.Core

/-!
# Literals

Constants of the script tree. Integers keep the type that they were written as, and enumeration
constants the names of the members that make them up.
-/

namespace ScriptLowering.Script

/-- A constant. -/
inductive Literal where
  | boolean (value : Bool)
  /-- An integer; unsigned 64-bit values are kept as their bits. -/
  | integer (value : Int64) (type : Ty)
  /-- A floating point number, as a double. -/
  | float (value : Double) (type : Ty)
  | string (text : String)
  /-- A code unit of 16 bits. -/
  | char (unit : UInt16)
  /-- An enumeration constant, with the members that make it up. -/
  | enumeration (value : Int64) (type : Ty) (names : List String)
  /-- The value of a type whose bits are all zero. -/
  | defaultOf (type : Ty)
  /-- The absent value of a type. -/
  | null (type : Ty)
  | pointer (address : Int64) (type : Ty)
  /-- A decimal constant as text. -/
  | decimal (text : String)
  | typeHandle (type : Ty)
  | methodHandle (method : Method)
  | fieldHandle (field : Field)
  /-- A type object. -/
  | typeOf (type : Ty)

namespace Literal

/-- Constants are the same when value and type are; the names of an enumeration constant follow
from them. -/
def same : Literal → Literal → Bool
  | boolean a, boolean b => a == b
  | integer a t, integer b u => a == b && t == u
  | float a t, float b u => a == b && t == u
  | string a, string b => a == b
  | char a, char b => a == b
  | enumeration a t _, enumeration b u _ => a == b && t == u
  | defaultOf t, defaultOf u => t == u
  | null t, null u => t == u
  | pointer a t, pointer b u => a == b && t == u
  | decimal a, decimal b => a == b
  | typeHandle t, typeHandle u => t == u
  | methodHandle m, methodHandle n => m == n
  | fieldHandle f, fieldHandle g => f == g
  | typeOf t, typeOf u => t == u
  | _, _ => false

instance : BEq Literal :=
  ⟨same⟩

/-- An integer of a primitive kind. -/
def ofKind (c : Core) (kind : Primitive) (value : Int64) : Literal :=
  .integer value (c.primitive kind)

/-- The members of a flags enumeration that `value` contains, if together they are `value`. -/
def flagNames (members : List (String × Int64)) (value : Int64) : List String :=
  let contained := members.filter fun m => m.2 != 0 && value &&& m.2 == m.2
  let remaining := contained.foldl (fun rest m => rest &&& ~~~m.2) value
  if remaining == 0 then contained.map (·.1) else []

/-- The names of the members that make up a value: one member if one has that value, else for a
flags enumeration the members whose bits it combines. -/
def memberNames (d : Definition) (value : Int64) : List String :=
  match d.members.find? (·.2 == value) with
  | some m => [m.1]
  | none => if d.isFlagsEnum then flagNames d.members value else []

/-- The constant of an enumeration type with a value. -/
def ofEnum (type : Ty) (value : Int64) : Literal :=
  .enumeration value type ((type.definition?.map (memberNames · value)).getD [])

/-- The type of a constant. -/
def type (c : Core) : Literal → Ty
  | boolean _ => c.boolean
  | integer _ t => t
  | float _ t => t
  | string _ => c.string
  | char _ => c.primitive .char
  | enumeration _ t _ => t
  | defaultOf t => t
  | null t => t
  | pointer _ t => t
  | decimal _ => c.decimal
  | typeHandle _ => c.typeHandle
  | methodHandle _ => c.methodHandle
  | fieldHandle _ => c.fieldHandle
  | typeOf _ => c.type

/-- The value of integer, enumeration, character and truth constants. -/
def toInt64? : Literal → Option Int64
  | integer v _ => some v
  | enumeration v _ _ => some v
  | char u => some (Int64.ofInt u.toNat)
  | boolean b => some (if b then 1 else 0)
  | _ => none

/-- Whether the constant is an absent value. -/
def isNull : Literal → Bool
  | null _ => true
  | _ => false

/-- A floating point constant with an integer value. -/
def floatOfInt64 (value : Int64) (target : Ty) : Literal :=
  .float (.ofInt64 value) target

/-- A character constant with the low 16 bits of a value. -/
def charOfInt64 (value : Int64) : Literal :=
  .char (UInt16.ofNat (Primitive.char.wrap value).toInt.toNat)

/-- The value of an integer, enumeration, character or truth constant as a constant of another
type, if the type has such constants. -/
def retype? (l : Literal) (target : Ty) : Option Literal := do
  let value ← l.toInt64?
  if target.isBoolean then
    return .boolean (value != 0)
  else
    match target.enumUnderlying? with
    | some kind => return ofEnum target (kind.wrap value)
    | none =>
      match ← target.primitive? with
      | .char => return charOfInt64 value
      | .r4 | .r8 => return floatOfInt64 value target
      | .boolean => none
      | kind => return .integer (kind.wrap value) target

/-- The name of a kind of constant. -/
def name : Literal → String
  | boolean .. => "Boolean"
  | integer .. => "Integer"
  | float .. => "Float"
  | string .. => "String"
  | char .. => "Char"
  | enumeration .. => "Enum"
  | defaultOf .. => "Default"
  | null .. => "Null"
  | pointer .. => "Pointer"
  | decimal .. => "Decimal"
  | typeHandle .. => "TypeHandle"
  | methodHandle .. => "MethodHandle"
  | fieldHandle .. => "FieldHandle"
  | typeOf .. => "TypeOf"

/-- The text of a constant. -/
def text : Literal → String
  | boolean b => toString b
  | integer v t => toString v.toInt ++ ":" ++ t.fullName
  | float v _ => FloatLayout.script.double v
  | string s => Text.quoted s
  | char u => "'\\u" ++ Text.hex 4 u.toNat ++ "'"
  | enumeration v t [] => t.fullName ++ "(" ++ toString v.toInt ++ ")"
  | enumeration _ t (name :: rest) => t.fullName ++ "." ++ "|".intercalate (name :: rest)
  | defaultOf t => "default(" ++ t.fullName ++ ")"
  | null _ => "null"
  | pointer a _ => "0x" ++ Text.hex 1 a.toUInt64.toNat ++ "p"
  | decimal s => s ++ "m"
  | typeHandle t => "typehandle(" ++ t.fullName ++ ")"
  | methodHandle m => "methodhandle(" ++ m.name ++ ")"
  | fieldHandle f => "fieldhandle(" ++ f.name ++ ")"
  | typeOf t => "typeof(" ++ t.fullName ++ ")"

end Literal

end ScriptLowering.Script
