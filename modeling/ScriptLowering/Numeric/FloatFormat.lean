/-!
# Binary floating point numbers by their bits

Floating point constants are kept as bit patterns, so that two of them are the same exactly when
their bits are. A pattern is read as `mantissa * 2 ^ exponent`, and a number of that shape is
rounded back to a format, to the nearest with ties to even. Everything is exact arithmetic on
natural numbers.
-/

namespace ScriptLowering

/-- A binary interchange format. -/
structure FloatFormat where
  /-- Significant bits, the leading one included. -/
  precision : Nat
  /-- Bits of the exponent field. -/
  exponentBits : Nat

namespace FloatFormat

/-- The 64-bit format. -/
def double : FloatFormat :=
  ⟨53, 11⟩

/-- The 32-bit format. -/
def single : FloatFormat :=
  ⟨24, 8⟩

/-- Bits of the fraction field. -/
def fractionBits (f : FloatFormat) : Nat :=
  f.precision - 1

/-- The largest value of the exponent field, which marks infinities and NaNs. -/
def topField (f : FloatFormat) : Nat :=
  Nat.pow 2 f.exponentBits - 1

/-- The exponent of the smallest positive number. -/
def leastExponent (f : FloatFormat) : Int :=
  2 - Nat.pow 2 (f.exponentBits - 1) - f.fractionBits

/-- The bits of a sign, an exponent field and a fraction field. -/
def pack (f : FloatFormat) (negative : Bool) (field fraction : Nat) : Nat :=
  (if negative then Nat.pow 2 (f.fractionBits + f.exponentBits) else 0)
    + field * Nat.pow 2 f.fractionBits + fraction

end FloatFormat

/-- What a bit pattern denotes. -/
inductive FloatValue where
  | nan (negative : Bool) (fraction : Nat)
  | infinite (negative : Bool)
  | finite (negative : Bool) (mantissa : Nat) (exponent : Int)

namespace FloatFormat

/-- Reads a bit pattern. -/
def decode (f : FloatFormat) (bits : Nat) : FloatValue :=
  let fraction := bits % Nat.pow 2 f.fractionBits
  let field := bits / Nat.pow 2 f.fractionBits % Nat.pow 2 f.exponentBits
  let negative := bits / Nat.pow 2 (f.fractionBits + f.exponentBits) % 2 == 1
  if field = f.topField then
    if fraction = 0 then .infinite negative else .nan negative fraction
  else if field = 0 then
    .finite negative fraction f.leastExponent
  else
    .finite negative (fraction + Nat.pow 2 f.fractionBits) (f.leastExponent + (field - 1 : Nat))

/-- `m / 2 ^ s` rounded to the nearest natural number, ties to even. -/
def roundShift (m s : Nat) : Nat :=
  let unit := Nat.pow 2 s
  let quotient := m / unit
  let twice := 2 * (m % unit)
  if twice > unit || (twice == unit && quotient % 2 == 1) then quotient + 1 else quotient

/-- The bits of a mantissa of at most `precision` bits at an exponent that the format has. -/
def encode (f : FloatFormat) (negative : Bool) (mantissa : Nat) (exponent : Int) : Nat :=
  if mantissa < Nat.pow 2 f.fractionBits then
    f.pack negative 0 mantissa
  else
    let field := (exponent - f.leastExponent).toNat + 1
    if field ≥ f.topField then f.pack negative f.topField 0
    else f.pack negative field (mantissa - Nat.pow 2 f.fractionBits)

/-- The bits of the number nearest to `m * 2 ^ q`, ties to even, infinite beyond the range. -/
def round (f : FloatFormat) (negative : Bool) (m : Nat) (q : Int) : Nat :=
  if m = 0 then
    f.pack negative 0 0
  else
    let target := max f.leastExponent (q + (Nat.log2 m + 1 : Nat) - f.precision)
    let rounded :=
      if target ≤ q then m * Nat.pow 2 (q - target).toNat else roundShift m (target - q).toNat
    if rounded = Nat.pow 2 f.precision then
      f.encode negative (Nat.pow 2 f.fractionBits) (target + 1)
    else
      f.encode negative rounded target

/-- The quiet NaN that keeps the leading fraction bits of a NaN of another format. -/
def quietNaN (f source : FloatFormat) (negative : Bool) (fraction : Nat) : Nat :=
  let moved :=
    if source.fractionBits ≤ f.fractionBits then
      fraction * Nat.pow 2 (f.fractionBits - source.fractionBits)
    else
      fraction / Nat.pow 2 (source.fractionBits - f.fractionBits)
  f.pack negative f.topField (moved ||| Nat.pow 2 (f.fractionBits - 1))

/-- The bits in format `f` of a pattern of format `source`. -/
def convert (f source : FloatFormat) (bits : Nat) : Nat :=
  match source.decode bits with
  | .nan negative fraction => f.quietNaN source negative fraction
  | .infinite negative => f.pack negative f.topField 0
  | .finite negative mantissa exponent => f.round negative mantissa exponent

end FloatFormat

/-- A 32-bit floating point constant. -/
structure Single where
  /-- The bit pattern. -/
  bits : UInt32
  deriving DecidableEq

/-- A 64-bit floating point constant. -/
structure Double where
  /-- The bit pattern. -/
  bits : UInt64
  deriving DecidableEq

namespace Double

/-- The value of the bit pattern. -/
def value (x : Double) : FloatValue :=
  FloatFormat.double.decode x.bits.toNat

/-- Positive zero. -/
def zero : Double :=
  ⟨0⟩

/-- Whether the pattern is a NaN. -/
def isNaN (x : Double) : Bool :=
  match x.value with
  | .nan .. => true
  | _ => false

/-- The same number as a 64-bit constant. -/
def ofSingle (x : Single) : Double :=
  ⟨UInt64.ofNat (FloatFormat.double.convert .single x.bits.toNat)⟩

/-- The nearest 32-bit number. -/
def toSingle (x : Double) : Single :=
  ⟨UInt32.ofNat (FloatFormat.single.convert .double x.bits.toNat)⟩

/-- The number nearest to a word. -/
def ofInt64 (v : Int64) : Double :=
  ⟨UInt64.ofNat (FloatFormat.double.round (v.toInt < 0) v.toInt.natAbs 0)⟩

/-- Magnitudes from here on do not convert to a word. -/
def wordBound : Nat :=
  92 * Nat.pow 10 17

/-- The integer part, for finite numbers smaller in magnitude than `wordBound`. -/
def toInt64? (x : Double) : Option Int64 :=
  match x.value with
  | .finite negative mantissa exponent =>
    let tooLarge :=
      if 0 ≤ exponent then wordBound ≤ mantissa * Nat.pow 2 exponent.toNat
      else wordBound * Nat.pow 2 (-exponent).toNat ≤ mantissa
    if tooLarge then
      none
    else
      let whole : Nat :=
        if 0 ≤ exponent then mantissa * Nat.pow 2 exponent.toNat
        else mantissa / Nat.pow 2 (-exponent).toNat
      some (Int64.ofInt (if negative then -whole else whole))
  | _ => none

end Double

end ScriptLowering
