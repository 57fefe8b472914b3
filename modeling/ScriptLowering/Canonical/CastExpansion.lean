import ScriptLowering.Canonical.Reduction
import ScriptLowering.Settings
import ScriptLowering.Ty.Assignability

/-!
# What casts do

A cast becomes the change of representation that it is: a numeric conversion, a comparison with
zero, a choice between one and zero, a step between an enumeration and its integers, a call of the
64-bit runtime, a change of type only, or nothing at all. A cast to a more special reference type
stays a cast, because it checks.
-/

namespace ScriptLowering.Canonical

open Script

/-- A constant of a type with an integer value, if the type has such constants. -/
def constantOf? (c : Core) (value : Int64) (type : Ty) : Option Literal :=
  (Literal.ofKind c .i4 value).retype? type

/-- The zero of a numeric type. -/
def zeroOf? (c : Core) (t : Ty) : Option Literal :=
  if t.isFloating then some (.float .zero t) else constantOf? c 0 t

/-- A value as a truth value: it differs from zero, or is present. -/
def toBoolean? (c : Core) (value : Node) (source : Ty) : Option Node :=
  if source.isBoolean then
    some value
  else
    let zero? :=
      match source.numericKind? with
      | some _ => (zeroOf? c source).map Node.literal
      | none => some (.nullOf source)
    zero?.map fun zero => .binary .notEqual value zero c.boolean

/-- A truth value as a number: one or zero. -/
def fromBoolean (c : Core) (value : Node) (target : Ty) : Node :=
  match constantOf? c 1 target, constantOf? c 0 target with
  | some one, some zero => .ternary value (.literal one) (.literal zero) target
  | _, _ => .changeType value target

/-- The forms that leave the bits of their operand alone, if the width is right. -/
def isTransparent : Form → Bool
  | .cast _ _ => true
  | .changeType _ => true
  | .conversion kind _ _ => kind = .reinterpret || kind = .enumToInt || kind = .intToEnum
  | _ => false

/-- Whether a numeric type has the width and signedness of a kind. -/
def hasShape (kind : Primitive) (t : Ty) : Bool :=
  t.numericKind?.any fun k => k.size == kind.size && k.isSigned == kind.isSigned

/-- The value under transparent forms whose operands have the shape of a kind. -/
def innermost (c : Core) (r : Retyping) (kind : Primitive) : Node → Node
  | ⟨form, []⟩ => ⟨form, []⟩
  | ⟨form, operand :: rest⟩ =>
    if isTransparent form && hasShape kind (operand.computedType c r) then
      innermost c r kind operand
    else
      ⟨form, operand :: rest⟩

/-- A value of an enumeration as an integer of its kind. -/
def enumInteger (h : Hierarchy) (r : Retyping) (value : Node) (kind : Primitive) : Node :=
  let inner := innermost h.core r kind value
  let type := inner.computedType h.core r
  let underlying := h.core.primitive kind
  if h.equal type underlying true then inner
  else if type.enumUnderlying?.isSome then .conversion inner .enumToInt underlying false
  else .changeType inner underlying

/-- A cast of an enumeration: read its integer, then cast that. -/
def unwrapEnum (h : Hierarchy) (r : Retyping) (value : Node) (kind : Primitive) (target : Ty)
    (checked : Bool) : Node :=
  let integer := enumInteger h r value kind
  if h.equal target (h.core.primitive kind) true then integer else .cast integer target checked

/-- A cast to an enumeration: cast to its integer, then make that a member. -/
def wrapEnum (h : Hierarchy) (value : Node) (source target : Ty) (kind : Primitive)
    (checked : Bool) : Node :=
  let underlying := h.core.primitive kind
  let integer := if h.equal source underlying true then value else .cast value underlying checked
  .conversion integer .intToEnum target false

/-- The call of the 64-bit runtime between two kinds of which one has 64 bits. -/
def int64Call (source target : Primitive) : String :=
  match source.isInt64, target.isInt64 with
  | true, true => "Int64Reinterpret"
  | false, true => "Int64FromNumber"
  | _, _ => "Int64ToNumber"

/-- The conversion between two kinds; none if they share width and signedness. -/
def conversionKind? (source target : Primitive) : Option ConversionKind :=
  match source.isFloating, target.isFloating with
  | false, true => some .intToFloat
  | true, false => some .floatToInt
  | _, _ =>
    if target.size < source.size then some .truncate
    else if target.size > source.size then some .widen
    else if target.isSigned != source.isSigned then some .reinterpret
    else none

/-- A cast between kinds. -/
def numericCast (emulateInt64 : Bool) (value : Node) (source kind : Primitive) (target : Ty)
    (checked : Bool) : Node :=
  if emulateInt64 && (source.isInt64 || kind.isInt64) then
    .intrinsic (int64Call source kind) target [value]
  else
    match conversionKind? source kind with
    | some conversion => .conversion value conversion target checked
    | none => .changeType value target

/-- A cast of which source or target is numeric. -/
def expandNumeric? (h : Hierarchy) (r : Retyping) (emulateInt64 : Bool) (value : Node)
    (source target : Ty) (checked : Bool) : Option Node :=
  match source.numericKind?, target.numericKind? with
  | _, some .boolean => toBoolean? h.core value source
  | some .boolean, some _ => some (fromBoolean h.core value target)
  | some sourceKind, some targetKind =>
    match source.enumUnderlying? with
    | some kind => some (unwrapEnum h r value kind target checked)
    | none =>
      if target.enumUnderlying?.isSome then some (wrapEnum h value source target targetKind checked)
      else some (numericCast emulateInt64 value sourceKind targetKind target checked)
  | _, _ => none

/-- A cast between references: to a more general type it only changes the type. -/
def expandReference? (h : Hierarchy) (value : Node) (source target : Ty) (memo : AssignableMemo) :
    Option Node × AssignableMemo :=
  let (isUpcast, memo) := memo.ask h target source
  if !isUpcast then (none, memo)
  else if h.same target source then (some value, memo)
  else (some (.changeType value target), memo)

/-- A numeric constant as a constant of the target type. -/
def castConstant? (value : Node) (source target : Ty) : Option Literal :=
  if source.numericKind?.isSome then value.literal?.bind (·.retype? target) else none

/-- What a cast of a value does, if it is known. -/
def expandCast? (h : Hierarchy) (r : Retyping) (emulateInt64 : Bool) (value : Node) (target : Ty)
    (checked : Bool) (memo : AssignableMemo) : Option Node × AssignableMemo :=
  let source := value.computedType h.core r
  if value.isNullLiteral && (!target.isValueType || target.isNullable) then
    (some (.nullOf target), memo)
  else if h.equal target source true then
    (some value, memo)
  else
    match castConstant? value source target with
    | some constant => (some (.literal constant), memo)
    | none =>
      if source.numericKind?.isNone && target.numericKind?.isNone then
        expandReference? h value source target memo
      else
        (expandNumeric? h r emulateInt64 value source target checked, memo)

/-- The reducer that expands casts. -/
def castExpansion (h : Hierarchy) (r : Retyping) (emulateInt64 : Bool) :
    Reducer AssignableMemo where
  name := "expand casts"
  reduct? n memo :=
    match n with
    | ⟨.cast target checked, value :: _⟩ =>
      let (replacement?, memo) := expandCast? h r emulateInt64 value target checked memo
      (.ok replacement?, memo)
    | _ => (.ok none, memo)

end ScriptLowering.Canonical
