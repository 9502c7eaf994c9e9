import Marginalia.Text.Basic

/-!
Numerals and the numbers they denote.
-/

namespace Marginalia.Text

def ofDigits (base : Nat) (digits : Text) : Nat := Nat.ofDigitChars base digits 0

theorem ofDigits_numeral (n : Nat) : ofDigits 10 (numeral n) = n := by
  simp [ofDigits, numeral]

def hexValue? (c : Char) : Option Nat :=
  if c.isDigit then some (c.toNat - 48)
  else if 'a' ≤ c && c ≤ 'f' then some (c.toNat - 87)
  else if 'A' ≤ c && c ≤ 'F' then some (c.toNat - 55)
  else none

def isHexDigit (c : Char) : Bool := (hexValue? c).isSome

def ofHex? (digits : Text) : Option Nat :=
  (digits.mapM hexValue?).map fun values => values.foldl (fun n v => 16 * n + v) 0

def hexDigit (n : Nat) : Char := if n < 10 then Char.ofNat (48 + n) else Char.ofNat (87 + n)

end Marginalia.Text
