/-!
# Operators and tags of the script tree

Unary and binary operators with their symbols, and the small tags that nodes carry: how a call
selects its target, in what a pointer offset is counted, and what a numeric conversion does.
-/

namespace ScriptLowering.Script

/-- Unary operators. -/
inductive UnaryOp where
  | negate
  | bitwiseNot
  | logicalNot
  | preIncrement
  | preDecrement
  | postIncrement
  | postDecrement
  deriving DecidableEq

namespace UnaryOp

/-- Every unary operator once, in table order. -/
def all : List UnaryOp :=
  [negate, bitwiseNot, logicalNot, preIncrement, preDecrement, postIncrement, postDecrement]

/-- The name of an operator. -/
def name : UnaryOp → String
  | negate => "Negate"
  | bitwiseNot => "BitwiseNot"
  | logicalNot => "LogicalNot"
  | preIncrement => "PreIncrement"
  | preDecrement => "PreDecrement"
  | postIncrement => "PostIncrement"
  | postDecrement => "PostDecrement"

/-- The operator with a name. -/
def ofName? (s : String) : Option UnaryOp :=
  all.find? (·.name == s)

/-- The symbol of an operator. -/
def symbol : UnaryOp → String
  | negate => "-"
  | bitwiseNot => "~"
  | logicalNot => "!"
  | preIncrement | postIncrement => "++"
  | preDecrement | postDecrement => "--"

/-- The increments and decrements. -/
def isMutating : UnaryOp → Bool
  | preIncrement | preDecrement | postIncrement | postDecrement => true
  | _ => false

end UnaryOp

/-- Binary operators, with assignments. -/
inductive BinaryOp where
  | add
  | sub
  | mul
  | div
  | rem
  | bitwiseAnd
  | bitwiseOr
  | xor
  | shl
  | shr
  | shrUnsigned
  | equal
  | notEqual
  | less
  | lessEqual
  | greater
  | greaterEqual
  | logicalAnd
  | logicalOr
  | assign
  | addAssign
  | subAssign
  | mulAssign
  | divAssign
  | remAssign
  | andAssign
  | orAssign
  | xorAssign
  | shlAssign
  | shrAssign
  | shrUnsignedAssign
  deriving DecidableEq

namespace BinaryOp

/-- Every binary operator once, in table order. -/
def all : List BinaryOp :=
  [add, sub, mul, div, rem, bitwiseAnd, bitwiseOr, xor, shl, shr, shrUnsigned, equal, notEqual,
    less, lessEqual, greater, greaterEqual, logicalAnd, logicalOr, assign, addAssign, subAssign,
    mulAssign, divAssign, remAssign, andAssign, orAssign, xorAssign, shlAssign, shrAssign,
    shrUnsignedAssign]

/-- The name of an operator. -/
def name : BinaryOp → String
  | add => "Add"
  | sub => "Sub"
  | mul => "Mul"
  | div => "Div"
  | rem => "Rem"
  | bitwiseAnd => "BitwiseAnd"
  | bitwiseOr => "BitwiseOr"
  | xor => "Xor"
  | shl => "Shl"
  | shr => "Shr"
  | shrUnsigned => "ShrUnsigned"
  | equal => "Equal"
  | notEqual => "NotEqual"
  | less => "Less"
  | lessEqual => "LessEqual"
  | greater => "Greater"
  | greaterEqual => "GreaterEqual"
  | logicalAnd => "LogicalAnd"
  | logicalOr => "LogicalOr"
  | assign => "Assign"
  | addAssign => "AddAssign"
  | subAssign => "SubAssign"
  | mulAssign => "MulAssign"
  | divAssign => "DivAssign"
  | remAssign => "RemAssign"
  | andAssign => "AndAssign"
  | orAssign => "OrAssign"
  | xorAssign => "XorAssign"
  | shlAssign => "ShlAssign"
  | shrAssign => "ShrAssign"
  | shrUnsignedAssign => "ShrUnsignedAssign"

/-- The operator with a name. -/
def ofName? (s : String) : Option BinaryOp :=
  all.find? (·.name == s)

/-- The symbol of an operator. -/
def symbol : BinaryOp → String
  | add => "+"
  | sub => "-"
  | mul => "*"
  | div => "/"
  | rem => "%"
  | bitwiseAnd => "&"
  | bitwiseOr => "|"
  | xor => "^"
  | shl => "<<"
  | shr => ">>"
  | shrUnsigned => ">>>"
  | equal => "=="
  | notEqual => "!="
  | less => "<"
  | lessEqual => "<="
  | greater => ">"
  | greaterEqual => ">="
  | logicalAnd => "&&"
  | logicalOr => "||"
  | assign => "="
  | addAssign => "+="
  | subAssign => "-="
  | mulAssign => "*="
  | divAssign => "/="
  | remAssign => "%="
  | andAssign => "&="
  | orAssign => "|="
  | xorAssign => "^="
  | shlAssign => "<<="
  | shrAssign => ">>="
  | shrUnsignedAssign => ">>>="

/-- The compound assignment with this operator. -/
def toCompound? : BinaryOp → Option BinaryOp
  | add => some addAssign
  | sub => some subAssign
  | mul => some mulAssign
  | div => some divAssign
  | rem => some remAssign
  | bitwiseAnd => some andAssign
  | bitwiseOr => some orAssign
  | xor => some xorAssign
  | shl => some shlAssign
  | shr => some shrAssign
  | shrUnsigned => some shrUnsignedAssign
  | _ => none

/-- The operator that a compound assignment applies. -/
def compoundBase? : BinaryOp → Option BinaryOp
  | addAssign => some add
  | subAssign => some sub
  | mulAssign => some mul
  | divAssign => some div
  | remAssign => some rem
  | andAssign => some bitwiseAnd
  | orAssign => some bitwiseOr
  | xorAssign => some xor
  | shlAssign => some shl
  | shrAssign => some shr
  | shrUnsignedAssign => some shrUnsigned
  | _ => none

/-- The plain and the compound assignments. -/
def isAssignment (op : BinaryOp) : Bool :=
  op == assign || op.compoundBase?.isSome

end BinaryOp

/-- How a call selects its target. -/
inductive Dispatch where
  /-- A static method. -/
  | static
  /-- A known instance method. -/
  | direct
  /-- Through the receiver. -/
  | virtual
  /-- Through an interface slot. -/
  | interface
  /-- The implementation of a base class, on the own receiver. -/
  | base
  /-- A delegate value. -/
  | delegate
  deriving DecidableEq

namespace Dispatch

/-- Every form of dispatch. -/
def all : List Dispatch :=
  [static, direct, virtual, interface, base, delegate]

/-- The name of a form of dispatch. -/
def name : Dispatch → String
  | static => "Static"
  | direct => "Instance"
  | virtual => "Virtual"
  | interface => "Interface"
  | base => "Base"
  | delegate => "Delegate"

/-- The form of dispatch with a name. -/
def ofName? (s : String) : Option Dispatch :=
  all.find? (·.name == s)

end Dispatch

/-- In what a pointer offset is counted. -/
inductive OffsetUnit where
  | bytes
  | elements
  deriving DecidableEq

namespace OffsetUnit

/-- The name of a unit. -/
def name : OffsetUnit → String
  | bytes => "Bytes"
  | elements => "Elements"

/-- The unit with a name. -/
def ofName? (s : String) : Option OffsetUnit :=
  [bytes, elements].find? (·.name == s)

end OffsetUnit

/-- Concrete changes of a numeric representation. -/
inductive ConversionKind where
  /-- To fewer bits, dropping the high ones. -/
  | truncate
  /-- To more bits, by the signedness of the source. -/
  | widen
  /-- The same width with the other signedness. -/
  | reinterpret
  | intToFloat
  /-- Toward zero. -/
  | floatToInt
  | enumToInt
  | intToEnum
  deriving DecidableEq

namespace ConversionKind

/-- Every kind of conversion. -/
def all : List ConversionKind :=
  [truncate, widen, reinterpret, intToFloat, floatToInt, enumToInt, intToEnum]

/-- The name of a kind of conversion. -/
def name : ConversionKind → String
  | truncate => "Truncate"
  | widen => "Widen"
  | reinterpret => "Reinterpret"
  | intToFloat => "IntToFloat"
  | floatToInt => "FloatToInt"
  | enumToInt => "EnumToInt"
  | intToEnum => "IntToEnum"

/-- The kind of conversion with a name. -/
def ofName? (s : String) : Option ConversionKind :=
  all.find? (·.name == s)

end ConversionKind

end ScriptLowering.Script
