import ScriptLowering.Script.Literal
import ScriptLowering.Script.Operator
import ScriptLowering.Script.Variable

/-!
# Forms of script nodes

A `Form` is the label of a node: its kind, with the data that is not a child. What is known of a
node from its label alone is a table on forms: how many operands it takes, what its slots are
called, and how its type, its constancy and its effects follow from its operands.
-/

namespace ScriptLowering.Script

/-- The label of a node. The comments list the operands. -/
inductive Form where
  /-- A constant. -/
  | literal (value : Literal)
  /-- A variable. -/
  | var (v : Variable)
  /-- A method as a value. -/
  | methodIdentifier (method : Method)
  /-- A field as a value. -/
  | fieldIdentifier (field : Field)
  /-- A type as a value, or as the target of a static access. -/
  | typeIdentifier (type : Ty)
  /-- A property as a value. -/
  | propertyIdentifier (property : Property)
  /-- Operands `[operand]`. -/
  | unary (op : UnaryOp) (result : Ty)
  /-- Operands `[left, right]`. -/
  | binary (op : BinaryOp) (result : Ty)
  /-- Operands `[condition, whenTrue, whenFalse]`. -/
  | ternary (result : Ty)
  /-- Operands `[receiver or empty, arguments...]`; an explicit receiver is passed like an
  argument. -/
  | invocation (method : Method) (dispatch : Dispatch) (explicitThis : Bool)
  /-- Operands `[arguments...]`. -/
  | newObject (constructor : Method) (type : Ty)
  /-- Operands `[arguments...]`, a call of the runtime library. -/
  | intrinsicCall (name : String) (result : Ty)
  /-- Operands `[left, right]`, a 32-bit product without loss of precision. -/
  | exactMultiply (signed : Bool)
  /-- Operands `[location]`. -/
  | takeReference
  /-- Operands `[reference]`. -/
  | dereference
  /-- Operands `[invocation]`, the referent of a returned reference. -/
  | resultDereference
  /-- Operands `[target]`, a reference to a field. -/
  | memberReference (field : Field)
  /-- Operands `[array, indices...]`, a reference to an element. -/
  | elementReference (element : Ty)
  /-- Operands `[reference]`, an argument passed by reference. -/
  | passByReference
  /-- Operands `[reference, value]`. -/
  | writeThrough
  /-- Operands `[reference]`, pins storage and yields a pointer to it. -/
  | pin
  /-- Operands `[pointer variable]`. -/
  | unpin
  /-- Operands `[pointer, offset or empty]`. -/
  | pointerRead (unit : OffsetUnit) (element : Ty)
  /-- Operands `[pointer, offset or empty, value]`. -/
  | pointerWrite (unit : OffsetUnit) (element : Ty)
  /-- Operands `[pointer, byte delta]`. -/
  | pointerAdd (type : Ty)
  /-- Operands `[left, right]`, the distance of two pointers in bytes. -/
  | pointerDelta
  /-- Operands `[pointer]`, the byte offset of a pointer within its buffer. -/
  | pointerOffset
  /-- Operands `[value]`, a copy of a value type. -/
  | structCopy
  /-- Operands `[initial value]`, a cell for a variable whose address is taken. -/
  | newBoxedVariable (type : Ty)
  /-- Operands `[value]`, a cast yet to be expanded. -/
  | cast (type : Ty) (checked : Bool)
  /-- Operands `[value]`, another type with the same representation. -/
  | changeType (type : Ty)
  /-- Operands `[value]`, a change of numeric representation. -/
  | conversion (kind : ConversionKind) (type : Ty) (checked : Bool)
  /-- Operands `[value]`. -/
  | typeTest (type : Ty)
  /-- Operands `[value]`. -/
  | asCast (type : Ty)
  /-- Operands `[value]`. -/
  | nullableWrap (type : Ty)
  /-- Operands `[value]`. -/
  | nullableUnwrap (type : Ty)
  /-- Operands `[target or type]`. -/
  | fieldAccess (field : Field)
  /-- Operands `[target or type, index arguments...]`. -/
  | propertyAccess (property : Property)
  /-- Operands `[array, indices...]`. -/
  | elementAccess (element : Ty)
  /-- A jump to a labeled block. -/
  | gotoLabel (label : String)
  /-- Operands `[value or empty]`. -/
  | returnValue
  /-- Leaves the nearest loop, by its index, or the nearest switch. -/
  | breakOut (target? : Option Nat)
  /-- Continues the nearest loop. -/
  | continueLoop (target? : Option Nat)
  /-- Operands `[exception]`. -/
  | throwValue
  /-- Throws the exception being handled again. -/
  | rethrow
  /-- Operands `[elements...]`. -/
  | arrayLiteral (element : Ty)
  /-- Operands `[dimensions...]`. -/
  | newArray (element : Ty) (rank : Nat)
  /-- Operands `[values...]`, one for each key. -/
  | objectLiteral (keys : List String)
  /-- Operands `[values...]`, script text with one placeholder for each value. -/
  | verbatim (text : String) (names : List String) (result : Ty)
  /-- Operands `[expressions...]`, all evaluated, with the value of the last. -/
  | comma
  /-- Operands `[arguments...]` of what has no script form. -/
  | unsupported (description : String)
  /-- What is left of a call that is ignored. -/
  | ignoredMember (name : String) (result : Ty)
  /-- An empty slot. -/
  | empty
  /-- Operands `[statements...]`, with a label if it is a jump target. -/
  | block (label? : Option String)
  /-- Operands `[expression]`. -/
  | expressionStatement
  /-- Operands `[condition, then, else or empty]`. -/
  | ifElse
  /-- Operands `[value, cases...]`. -/
  | switch
  /-- Operands `[body]`. -/
  | switchCase (values : List Int64) (isDefault : Bool)
  /-- Operands `[body, catch or empty, finally or empty, fault or empty]`. -/
  | tryCatch (var? : Option Variable)
  /-- Operands `[condition, body]`. -/
  | whileLoop (index : Nat)
  /-- Operands `[declarations...]`, variables or assignments to variables. -/
  | variableDeclaration
  deriving BEq

namespace Form

/-- The name of a form. -/
def name : Form → String
  | literal .. => "Literal"
  | var .. => "Variable"
  | methodIdentifier .. => "MethodIdentifier"
  | fieldIdentifier .. => "FieldIdentifier"
  | typeIdentifier .. => "TypeIdentifier"
  | propertyIdentifier .. => "PropertyIdentifier"
  | unary .. => "Unary"
  | binary .. => "Binary"
  | ternary .. => "Ternary"
  | invocation .. => "Invocation"
  | newObject .. => "New"
  | intrinsicCall .. => "IntrinsicCall"
  | exactMultiply .. => "ExactMultiply"
  | takeReference => "TakeReference"
  | dereference => "Dereference"
  | resultDereference => "ResultDereference"
  | memberReference .. => "MemberReference"
  | elementReference .. => "ElementReference"
  | passByReference => "PassByReference"
  | writeThrough => "WriteThrough"
  | pin => "Pin"
  | unpin => "Unpin"
  | pointerRead .. => "PointerRead"
  | pointerWrite .. => "PointerWrite"
  | pointerAdd .. => "PointerAdd"
  | pointerDelta => "PointerDelta"
  | pointerOffset => "PointerOffset"
  | structCopy => "StructCopy"
  | newBoxedVariable .. => "NewBoxedVariable"
  | cast .. => "Cast"
  | changeType .. => "ChangeType"
  | conversion .. => "Conversion"
  | typeTest .. => "TypeTest"
  | asCast .. => "AsCast"
  | nullableWrap .. => "NullableWrap"
  | nullableUnwrap .. => "NullableUnwrap"
  | fieldAccess .. => "FieldAccess"
  | propertyAccess .. => "PropertyAccess"
  | elementAccess .. => "ElementAccess"
  | gotoLabel .. => "Goto"
  | returnValue => "Return"
  | breakOut .. => "Break"
  | continueLoop .. => "Continue"
  | throwValue => "Throw"
  | rethrow => "Rethrow"
  | arrayLiteral .. => "ArrayLiteral"
  | newArray .. => "NewArray"
  | objectLiteral .. => "ObjectLiteral"
  | verbatim .. => "Verbatim"
  | comma => "Comma"
  | unsupported .. => "Untranslatable"
  | ignoredMember .. => "IgnoredMember"
  | empty => "Null"
  | block .. => "Block"
  | expressionStatement => "ExpressionStatement"
  | ifElse => "If"
  | switch => "Switch"
  | switchCase .. => "SwitchCase"
  | tryCatch .. => "Try"
  | whileLoop .. => "While"
  | variableDeclaration => "VariableDeclaration"

/-- The forms that hold nothing but their name. -/
def bare : List Form :=
  [takeReference, dereference, resultDereference, passByReference, writeThrough, pin, unpin,
    pointerDelta, pointerOffset, structCopy, returnValue, throwValue, rethrow, comma, empty,
    expressionStatement, ifElse, switch, variableDeclaration]

/-- The forms that hold a type and nothing else. -/
def typed (t : Ty) : List Form :=
  [typeIdentifier t, ternary t, elementReference t, elementAccess t, arrayLiteral t, pointerAdd t,
    newBoxedVariable t, changeType t, typeTest t, asCast t, nullableWrap t, nullableUnwrap t]

/-- The form with a name, for forms that hold at most a type. -/
def ofName? (type? : Option Ty) (s : String) : Option Form :=
  (bare ++ type?.elim [] typed).find? (·.name == s)

/-- The number of operands of forms with fixed slots. -/
def fixedArity? : Form → Option Nat
  | literal .. | var .. | methodIdentifier .. | fieldIdentifier .. | typeIdentifier ..
  | propertyIdentifier .. | gotoLabel .. | breakOut .. | continueLoop .. | rethrow
  | ignoredMember .. | empty => some 0
  | unary .. | takeReference | dereference | resultDereference | memberReference ..
  | passByReference | pin | unpin | pointerOffset | structCopy | newBoxedVariable .. | cast ..
  | changeType .. | conversion .. | typeTest .. | asCast .. | nullableWrap ..
  | nullableUnwrap .. | fieldAccess .. | returnValue | throwValue | expressionStatement
  | switchCase .. => some 1
  | binary .. | exactMultiply .. | writeThrough | pointerRead .. | pointerAdd .. | pointerDelta
  | whileLoop .. => some 2
  | ternary .. | pointerWrite .. | ifElse => some 3
  | tryCatch .. => some 4
  | objectLiteral keys => some keys.length
  | verbatim _ names _ => some names.length
  | invocation .. | newObject .. | intrinsicCall .. | elementReference .. | propertyAccess ..
  | elementAccess .. | arrayLiteral .. | newArray .. | comma | unsupported .. | block ..
  | switch | variableDeclaration => none

/-- The least number of operands. -/
def minArity : Form → Nat
  | invocation .. | propertyAccess .. | switch | newArray .. => 1
  | elementReference .. | elementAccess .. => 2
  | f => f.fixedArity?.getD 0

/-- What the leading slots are called. -/
def slotNames : Form → List String
  | unary .. => ["operand"]
  | binary .. | exactMultiply .. | pointerDelta => ["left", "right"]
  | ternary .. => ["condition", "true", "false"]
  | invocation .. => ["this"]
  | writeThrough => ["reference", "value"]
  | pointerRead .. => ["pointer", "offset"]
  | pointerWrite .. => ["pointer", "offset", "value"]
  | pointerAdd .. => ["pointer", "delta"]
  | fieldAccess .. | propertyAccess .. | memberReference .. => ["target"]
  | elementAccess .. | elementReference .. => ["array"]
  | ifElse => ["condition", "then", "else"]
  | whileLoop .. => ["condition", "body"]
  | tryCatch .. => ["body", "catch", "finally", "fault"]
  | switch | returnValue => ["value"]
  | throwValue => ["exception"]
  | cast .. | changeType .. | conversion .. | typeTest .. | asCast .. | nullableWrap ..
  | nullableUnwrap .. | structCopy => ["value"]
  | _ => []

/-- The reference wrappers that may not wrap themselves. -/
inductive ReferenceWrapper where
  | takeReference
  | passByReference
  | memberReference
  deriving DecidableEq

/-- The reference wrapper that a form is. -/
def referenceWrapper? : Form → Option ReferenceWrapper
  | takeReference => some .takeReference
  | passByReference => some .passByReference
  | memberReference _ => some .memberReference
  | _ => none

/-- Whether the form is a statement. -/
def isStatement : Form → Bool
  | block .. | expressionStatement | ifElse | switch | switchCase .. | tryCatch .. | whileLoop ..
  | variableDeclaration => true
  | _ => false

/-- How the type of a node follows from its operands. -/
inductive TypeRule where
  /-- The type is known. -/
  | known (type : Ty)
  /-- The type of an operand. -/
  | operand (index : Nat)
  /-- A reference to the type of the first operand. -/
  | referenceToFirst
  /-- What the first operand refers to. -/
  | referentOfFirst
  /-- A pointer to what the first operand refers to. -/
  | pointerToReferent
  /-- The type of the last operand. -/
  | last

/-- The type rule of a form. Forms without a value have the type of no result. -/
def typeRule (c : Core) (r : Retyping) : Form → TypeRule
  | literal l => .known (l.type c)
  | var v => .known (r.typeOf v)
  | methodIdentifier _ => .known c.nativeInt
  | fieldIdentifier f => .known f.type
  | typeIdentifier _ => .known c.type
  | propertyIdentifier p => .known p.type
  | unary _ result => .known result
  | binary _ result => .known result
  | ternary result => .known result
  | intrinsicCall _ result => .known result
  | verbatim _ _ result => .known result
  | ignoredMember _ result => .known result
  | invocation m _ _ => .known m.returnType
  | newObject _ type => .known type
  | exactMultiply signed => .known (c.primitive (if signed then .i4 else .u4))
  | takeReference => .referenceToFirst
  | memberReference f => .known (.byRef f.type)
  | elementReference element => .known (.byRef element)
  | newBoxedVariable type => .known (.byRef type)
  | dereference | resultDereference => .referentOfFirst
  | passByReference | structCopy => .operand 0
  | writeThrough => .operand 1
  | pin => .pointerToReferent
  | pointerRead _ element => .known element
  | pointerAdd type => .known type
  | pointerDelta | pointerOffset => .known c.nativeInt
  | cast type _ => .known type
  | changeType type => .known type
  | conversion _ type _ => .known type
  | asCast type => .known type
  | nullableWrap type => .known type
  | nullableUnwrap type => .known type
  | typeTest _ => .known c.boolean
  | fieldAccess f => .known f.type
  | propertyAccess p => .known p.type
  | elementAccess element => .known element
  | arrayLiteral element => .known (Ty.arrayOf element 1)
  | newArray element rank => .known (Ty.arrayOf element rank)
  | objectLiteral _ => .known c.object
  | comma => .last
  | _ => .known c.void

/-- How the constancy of a node follows from its operands. -/
inductive Constancy where
  | always
  | whenOperandsAre
  | never
  deriving DecidableEq

/-- The constancy of a form. -/
def constancy : Form → Constancy
  | literal _ | typeIdentifier _ | methodIdentifier _ => .always
  | unary op _ => if op.isMutating then .never else .whenOperandsAre
  | binary op _ => if op.isAssignment then .never else .whenOperandsAre
  | ternary .. | exactMultiply .. | cast .. | changeType .. | conversion .. | nullableWrap .. =>
    .whenOperandsAre
  | _ => .never

/-- Whether the form by itself may touch state outside the method. -/
def touchesGlobalState : Form → Bool
  | fieldAccess f => f.isStatic
  | memberReference f => f.isStatic
  | invocation .. | newObject .. | intrinsicCall .. | propertyAccess .. | verbatim .. => true
  | _ => false

/-- Whether the form by itself has an effect, so that evaluating it twice may differ from evaluating
it once. -/
def hasEffect : Form → Bool
  | unary op _ => op.isMutating
  | binary op _ => op.isAssignment
  | invocation .. | newObject .. | intrinsicCall .. | propertyAccess .. | verbatim ..
  | writeThrough | pointerWrite .. | pin | unpin | newBoxedVariable .. | newArray .. | throwValue
  | rethrow | unsupported .. => true
  | _ => false

/-- Whether the form names a location that can be assigned. -/
def isLocation : Form → Bool
  | var _ | fieldAccess _ | elementAccess _ | dereference | resultDereference => true
  | propertyAccess p => p.setter?.isSome
  | _ => false

/-- Whether the form yields a reference whatever its type. -/
def isReferenceForm : Form → Bool
  | takeReference | memberReference _ | elementReference _ | passByReference | newBoxedVariable _ =>
    true
  | _ => false

/-- Whether the text of the form is the whole text of its node. -/
def isLeafText : Form → Bool
  | literal _ | var _ | methodIdentifier _ | fieldIdentifier _ | typeIdentifier _
  | propertyIdentifier _ | empty | gotoLabel _ => true
  | _ => false

/-- The text of a form. -/
def text : Form → String
  | literal l => l.text
  | var v => v.name
  | methodIdentifier m => m.name
  | fieldIdentifier f => f.name
  | typeIdentifier t => t.fullName
  | propertyIdentifier p => p.name
  | empty => "_"
  | unary op _ => "Unary[" ++ op.symbol ++ "]"
  | binary op _ => "Binary[" ++ op.symbol ++ "]"
  | invocation m dispatch _ => "Invocation[" ++ dispatch.name ++ " " ++ m.name ++ "]"
  | intrinsicCall name _ => "IntrinsicCall[" ++ name ++ "]"
  | cast t _ => "Cast[" ++ t.fullName ++ "]"
  | changeType t => "ChangeType[" ++ t.fullName ++ "]"
  | typeTest t => "TypeTest[" ++ t.fullName ++ "]"
  | asCast t => "AsCast[" ++ t.fullName ++ "]"
  | nullableWrap t => "NullableWrap[" ++ t.fullName ++ "]"
  | nullableUnwrap t => "NullableUnwrap[" ++ t.fullName ++ "]"
  | conversion kind t _ => "Conversion[" ++ kind.name ++ " " ++ t.fullName ++ "]"
  | fieldAccess f => "FieldAccess[" ++ f.name ++ "]"
  | memberReference f => "MemberReference[" ++ f.name ++ "]"
  | propertyAccess p => "PropertyAccess[" ++ p.name ++ "]"
  | gotoLabel label => "Goto[" ++ label ++ "]"
  | block (some label) => "Block[" ++ label ++ "]"
  | f => f.name

end Form

end ScriptLowering.Script
