import ScriptLowering.Numeric.FloatFormat

/-!
# Decimal text of floating point numbers

A number is written with the fewest significant digits that read back to it, the nearest such
decimal if there are several, and the larger of two equally near ones. `FloatFormat.shortest?`
finds the digits: for one digit, two digits and so on it tests the two neighbours of the number on
that decimal grid against the interval of reals that round to it. `FloatLayout` holds the
decisions of a text form and `FloatLayout.render` writes the digits out.
-/

namespace ScriptLowering

/-- A positive decimal number `digits * 10 ^ exponent`. -/
structure Decimal where
  digits : Nat
  exponent : Int
  deriving DecidableEq

namespace Decimal

/-- The number of digits of a natural number. -/
def width (n : Nat) : Nat :=
  (Nat.toDigits 10 n).length

/-- Moves trailing zeros of the digits into the exponent. -/
def trim : Nat → Decimal → Decimal
  | 0, d => d
  | fuel + 1, d => if d.digits % 10 = 0 then trim fuel ⟨d.digits / 10, d.exponent + 1⟩ else d

/-- The exponent of the leading digit. -/
def leading (d : Decimal) : Int :=
  d.exponent + width d.digits - 1

end Decimal

namespace FloatFormat

/-- `10 ^ scale` exceeds every ratio between one and a number of the formats used here. -/
def scale : Nat :=
  400

/-- The power of ten just above `m * 2 ^ q`. -/
def ceilingExponent (m : Nat) (q : Int) : Int :=
  let scaled :=
    if 0 ≤ q then m * Nat.pow 2 q.toNat * Nat.pow 10 scale
    else m * Nat.pow 10 scale / Nat.pow 2 (-q).toNat
  Decimal.width scaled - scale

/-- The best decimal with `n` digits that rounds to `m * 2 ^ q`, where `k` is the power of ten
just above it. All quantities are brought to one denominator, and four times the number is used so
that the ends of the interval are whole. -/
def neighbour? (f : FloatFormat) (m : Nat) (q : Int) (k : Int) (n : Nat) : Option Decimal :=
  let gridExponent := k - n
  let numberScale := Nat.pow 2 (q - 2).toNat * Nat.pow 10 (-gridExponent).toNat
  let step := Nat.pow 10 gridExponent.toNat * Nat.pow 2 (2 - q).toNat
  let number := 4 * m * numberScale
  -- The gap below a power of two is half as wide, except at the smallest exponent.
  let narrow := m == Nat.pow 2 f.fractionBits && f.leastExponent < q
  let low := (4 * m - (if narrow then 1 else 2)) * numberScale
  let high := (4 * m + 2) * numberScale
  let inside (x : Nat) : Bool :=
    if m % 2 == 0 then low ≤ x && x ≤ high else low < x && x < high
  let below := number / step
  let lower := below * step
  let upper := (below + 1) * step
  if inside lower then
    if inside upper && 2 * (number - lower) ≥ step then some ⟨below + 1, gridExponent⟩
    else some ⟨below, gridExponent⟩
  else if inside upper then
    some ⟨below + 1, gridExponent⟩
  else
    none

/-- Digits always enough to tell the numbers of the formats used here apart. -/
def enoughDigits : Nat :=
  17

/-- The shortest decimal that rounds to `m * 2 ^ q`. -/
def shortest? (f : FloatFormat) (m : Nat) (q : Int) : Option Decimal :=
  let k := ceilingExponent m q
  (List.range enoughDigits).findSome? fun i =>
    (f.neighbour? m q k (i + 1)).map (Decimal.trim enoughDigits)

end FloatFormat

/-- The decisions of a text form of floating point numbers. -/
structure FloatLayout where
  /-- Exponents of the leading digit that are written positionally. -/
  positional : Int → Bool
  /-- Whether whole numbers end in `.0`. -/
  keepsPoint : Bool

namespace FloatLayout

/-- Script text: positional from `0.0001` up to sixteen digits before the point, and always a
point in positional form. -/
def script : FloatLayout :=
  ⟨fun e => -5 < e && e < 16, true⟩

/-- Instruction text: always positional, no point after whole numbers. -/
def instruction : FloatLayout :=
  ⟨fun _ => true, false⟩

/-- `n` zeros. -/
def zeros (n : Nat) : String :=
  String.ofList (List.replicate n '0')

/-- Positional form. -/
def positionalText (layout : FloatLayout) (d : Decimal) : String :=
  let digits := Nat.toDigits 10 d.digits
  if 0 ≤ d.exponent then
    String.ofList digits ++ zeros d.exponent.toNat ++ (if layout.keepsPoint then ".0" else "")
  else
    let places := (-d.exponent).toNat
    if places < digits.length then
      String.ofList (digits.take (digits.length - places)) ++ "."
        ++ String.ofList (digits.drop (digits.length - places))
    else
      "0." ++ zeros (places - digits.length) ++ String.ofList digits

/-- Exponent form. -/
def exponentText (d : Decimal) : String :=
  let mantissa :=
    match Nat.toDigits 10 d.digits with
    | [] => ""
    | [c] => String.ofList [c]
    | c :: rest => String.ofList (c :: '.' :: rest)
  mantissa ++ "e" ++ toString d.leading

/-- The text of a number of format `f`. -/
def render (layout : FloatLayout) (f : FloatFormat) (bits : Nat) : String :=
  match f.decode bits with
  | .nan .. => "NaN"
  | .infinite negative => (if negative then "-" else "") ++ "inf"
  | .finite negative mantissa exponent =>
    let sign := if negative then "-" else ""
    match f.shortest? mantissa exponent with
    | some d =>
      if mantissa = 0 then sign ++ (if layout.keepsPoint then "0.0" else "0")
      else if layout.positional d.leading then sign ++ layout.positionalText d
      else sign ++ exponentText d
    | none => sign ++ (if layout.keepsPoint then "0.0" else "0")

/-- The text of a 64-bit number. -/
def double (layout : FloatLayout) (x : Double) : String :=
  layout.render .double x.bits.toNat

/-- The text of a 32-bit number. -/
def single (layout : FloatLayout) (x : Single) : String :=
  layout.render .single x.bits.toNat

end FloatLayout

end ScriptLowering
