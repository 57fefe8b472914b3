/-!
# Primitive kinds

The fourteen primitive value types of the core module, with the table that numeric reasoning goes
through: width, signedness and the counterpart of the other sign. Native integers count as four
bytes wide, because the script runtime addresses memory with 32-bit offsets.
-/

namespace ScriptLowering

/-- The primitive value types, in the order of the table. -/
inductive Primitive where
  | boolean
  | char
  | i1
  | u1
  | i2
  | u2
  | i4
  | u4
  | i8
  | u8
  | i
  | u
  | r4
  | r8
  deriving DecidableEq

namespace Primitive

/-- Every kind once, in table order. -/
def all : List Primitive :=
  [boolean, char, i1, u1, i2, u2, i4, u4, i8, u8, i, u, r4, r8]

/-- The place of a kind in the table. -/
def position (k : Primitive) : Nat :=
  all.idxOf k

/-- The short code of a kind. -/
def code : Primitive → String
  | boolean => "Boolean"
  | char => "Char"
  | i1 => "I1"
  | u1 => "U1"
  | i2 => "I2"
  | u2 => "U2"
  | i4 => "I4"
  | u4 => "U4"
  | i8 => "I8"
  | u8 => "U8"
  | i => "I"
  | u => "U"
  | r4 => "R4"
  | r8 => "R8"

/-- The name of the value type within the namespace `System`. -/
def name : Primitive → String
  | boolean => "Boolean"
  | char => "Char"
  | i1 => "SByte"
  | u1 => "Byte"
  | i2 => "Int16"
  | u2 => "UInt16"
  | i4 => "Int32"
  | u4 => "UInt32"
  | i8 => "Int64"
  | u8 => "UInt64"
  | i => "IntPtr"
  | u => "UIntPtr"
  | r4 => "Single"
  | r8 => "Double"

/-- The kind with the given type name, if there is one. -/
def ofName? (s : String) : Option Primitive :=
  all.find? (·.name == s)

/-- The kind with the given short code, if there is one. -/
def ofCode? (s : String) : Option Primitive :=
  all.find? (·.code == s)

/-- The integer kinds: all but `boolean` and the floating point kinds. -/
def isIntegral : Primitive → Bool
  | boolean | r4 | r8 => false
  | _ => true

/-- The floating point kinds. -/
def isFloating : Primitive → Bool
  | r4 | r8 => true
  | _ => false

/-- The kinds that take part in arithmetic. -/
def isNumeric : Primitive → Bool
  | boolean => false
  | _ => true

/-- The integers of native width. -/
def isNative : Primitive → Bool
  | i | u => true
  | _ => false

/-- The 64-bit integers. -/
def isInt64 : Primitive → Bool
  | i8 | u8 => true
  | _ => false

/-- The signed integers and the floating point kinds. -/
def isSigned : Primitive → Bool
  | i1 | i2 | i4 | i8 | i | r4 | r8 => true
  | _ => false

/-- Width in bytes. -/
def size : Primitive → Nat
  | boolean | i1 | u1 => 1
  | char | i2 | u2 => 2
  | i4 | u4 | i | u | r4 => 4
  | i8 | u8 | r8 => 8

/-- The unsigned integer kind of the same width. -/
def toUnsigned? : Primitive → Option Primitive
  | i1 | u1 => some u1
  | i2 | u2 | char => some u2
  | i4 | u4 => some u4
  | i8 | u8 => some u8
  | i | u => some u
  | boolean | r4 | r8 => none

/-- The signed integer kind of the same width. -/
def toSigned? : Primitive → Option Primitive
  | i1 | u1 => some i1
  | i2 | u2 | char => some i2
  | i4 | u4 => some i4
  | i8 | u8 => some i8
  | i | u => some i
  | boolean | r4 | r8 => none

/-- The number of values of a kind of this width. -/
def modulus (k : Primitive) : Nat :=
  Nat.pow 2 (8 * k.size)

/-- What a slot of kind `k` holds after `v` is stored in it. Truth values become 0 or 1, integers
narrower than a word are reduced into their range; words and floating point kinds keep all bits. -/
def wrap (k : Primitive) (v : Int64) : Int64 :=
  if k = boolean then
    if v = 0 then 0 else 1
  else if k.isIntegral && k.size < 8 then
    if k.isSigned then Int64.ofInt (v.toInt.bmod k.modulus)
    else Int64.ofInt (v.toInt % k.modulus)
  else
    v

end Primitive

end ScriptLowering
