/-!
# Hexadecimal text

Numbers and byte strings in hexadecimal. Writing uses lower-case digits and reading takes both
cases; a byte is two digits, the high half first.
-/

namespace ScriptLowering.Text

/-- A number in hexadecimal, padded with zeros to a width. -/
def hex (width n : Nat) : String :=
  let digits := Nat.toDigits 16 n
  String.ofList (List.replicate (width - digits.length) '0' ++ digits)

/-- The value of a digit. -/
def hexDigit? (c : Char) : Option Nat :=
  "0123456789abcdef".toList.idxOf? c.toLower

/-- The number that digits stand for. -/
def hexValue? (digits : List Char) : Option Nat :=
  digits.foldlM (fun n c => (hexDigit? c).map (16 * n + ·)) 0

/-- The bytes that pairs of digits stand for. -/
def hexBytes? : List Char → Option (List UInt8)
  | [] => some []
  | [_] => none
  | a :: b :: rest => do return UInt8.ofNat (← hexValue? [a, b]) :: (← hexBytes? rest)

end ScriptLowering.Text
