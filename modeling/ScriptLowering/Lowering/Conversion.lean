import ScriptLowering.Lowering.Coercion

/-!
# Numeric conversions

A conversion to the representation that a value already has is dropped, a conversion of a constant
is folded, and every other one is a cast. Conversions that check for overflow fold only when the
value fits.
-/

namespace ScriptLowering.Lowering

open Script

/-- Whether values of a type are stored just like values of a kind. -/
def sameRepresentation (source : Ty) (target : Primitive) : Bool :=
  match source.primitive? with
  | some kind =>
    kind == target
      || (kind.isIntegral && target.isIntegral && kind != .char && target != .char
          && kind.size == target.size && kind.isSigned == target.isSigned)
  | none => false

/-- The constant of a kind with an integer value, if the conversion does not overflow. -/
def foldInteger? (c : Core) (value : Int64) (kind : Primitive) (checked : Bool) : Option Literal :=
  if !kind.isIntegral then
    none
  else
    let wrapped := kind.wrap value
    -- A negative value never fits an unsigned kind, also one of full width.
    if checked && (wrapped != value || (value < 0 && !kind.isSigned)) then
      none
    else if kind = .char then
      some (.charOfInt64 value)
    else
      some (.integer wrapped (c.primitive kind))

/-- A floating point number as one of a floating point kind. -/
def roundedTo (kind : Primitive) (value : Double) : Double :=
  if kind = .r4 then .ofSingle value.toSingle else value

/-- The constant that a conversion of a constant yields. -/
def foldConversion? (c : Core) (l : Literal) (kind : Primitive) (checked : Bool) : Option Literal :=
  match l with
  | .float value _ =>
    if kind.isFloating then some (.float (roundedTo kind value) (c.primitive kind))
    else value.toInt64?.bind (foldInteger? c · kind checked)
  | .integer .. | .char _ | .boolean _ =>
    l.toInt64?.bind fun value =>
      if kind.isFloating then some (.floatOfInt64 value (c.primitive kind))
      else foldInteger? c value kind checked
  | _ => none

/-- The unsigned kind as which a signed integer of a type is read. -/
def unsignedReading? (t : Ty) : Option Primitive :=
  match t.numericKind? with
  | some kind => if kind.isIntegral && kind.isSigned then kind.toUnsigned? else none
  | none => none

/-- A signed integer read as the unsigned integer of its width; other values as they are. -/
def asUnsigned (c : Core) (r : Retyping) (node : Node) : Node :=
  match unsignedReading? (node.computedType c r) with
  | some kind =>
    match node.form with
    | .literal (.integer value _) => .literal (.integer (kind.wrap value) (c.primitive kind))
    | _ => .conversion node .reinterpret (c.primitive kind) false
  | none => node

namespace Lowerer

/-- A signed integer read as the unsigned integer of its width. -/
def unsigned (g : Lowerer) (node : Node) : Lower Node :=
  return asUnsigned g.core (← Lower.context).scope.retyping node

/-- Lowers a conversion to a kind. -/
def conversion (g : Lowerer) (e : Cil.Expr) (kind : Primitive) (checked : Bool) : Lower Node := do
  let plain ← g.raw (← argument e 0)
  let value ← if e.code.isUnsignedSource then g.unsigned plain else pure plain
  if sameRepresentation (← g.typeOf value) kind then
    return value
  else
    match value.literal?.bind (foldConversion? g.core · kind checked) with
    | some constant => return .literal constant
    | none => return .cast value (g.core.primitive kind) checked

end Lowerer

end ScriptLowering.Lowering
