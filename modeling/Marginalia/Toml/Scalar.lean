import Marginalia.Text.Digits
import Marginalia.Toml.Value

/-!
TOML scalars that are written as a word: booleans, numbers and dates. Digits may be separated by
single underscores. Decimal numbers have no leading zeros.
-/

namespace Marginalia.Toml.Scalar

def digits? (isDigit : Char → Bool) (t : Text) : Option Text :=
  let groups := t.splitOn '_'
  if groups.all fun g => !g.isEmpty && g.all isDigit then some groups.flatten else none

def isOctal (c : Char) : Bool := '0' ≤ c && c ≤ '7'

def isBinary (c : Char) : Bool := c = '0' || c = '1'

def decimalDigits? (t : Text) : Option Text := do
  let ds ← digits? Char.isDigit t
  if t.head? = some '0' && t ≠ ['0'] then none else some ds

/-- A sign, if there is one, and the rest; the sign is true for a minus. -/
def splitSign : Text → Bool × Text
  | '-' :: t => (true, t)
  | '+' :: t => (false, t)
  | t => (false, t)

def inRange (n : Int) : Option Int :=
  if -9223372036854775808 ≤ n ∧ n ≤ 9223372036854775807 then some n else none

def integer? : Text → Option Int
  | '0' :: 'x' :: t => do inRange (← Text.ofHex? (← digits? Text.isHexDigit t))
  | '0' :: 'o' :: t => do inRange (Text.ofDigits 8 (← digits? isOctal t))
  | '0' :: 'b' :: t => do inRange (Text.ofDigits 2 (← digits? isBinary t))
  | t => do
    let (negative, t) := splitSign t
    let n : Int := Text.ofDigits 10 (← decimalDigits? t)
    inRange (if negative then -n else n)

/-- The least number that is too large for a binary number of 64 bits with a fraction. -/
def tooLarge : Nat := (Nat.pow 2 54 - 1) * Nat.pow 2 970

/-- The digits, taken as a number, times a power of ten are less than `tooLarge`. The numbers of
digits decide unless they are close. -/
def isFinite (digits : Text) (exponent : Int) : Bool :=
  let ds := digits.dropWhile (· = '0')
  let size : Int := ds.length + exponent
  if ds.isEmpty || size < 309 then true
  else if 309 < size then false
  else
    let scale (n : Int) : Nat := Nat.pow 10 n.toNat
    decide (Text.ofDigits 10 ds * scale exponent < tooLarge * scale (-exponent))

def exponent? : Text → Option Int
  | [] => some 0
  | _ :: t => do
    let (negative, t) := splitSign t
    let n : Int := Text.ofDigits 10 (← digits? Char.isDigit t)
    some (if negative then -n else n)

def isExponentMark (c : Char) : Bool := c = 'e' || c = 'E'

def isFloat (word : Text) : Bool :=
  let (negative, t) := splitSign word
  let mantissa := t.takeWhile fun c => !isExponentMark c
  let tail := t.dropWhile fun c => !isExponentMark c
  let whole := mantissa.takeWhile (· ≠ '.')
  let fraction := mantissa.dropWhile (· ≠ '.')
  let checked : Option Bool := do
    let exponent ← exponent? tail
    let ds ← decimalDigits? whole
    match fraction with
    | [] => if tail.isEmpty then none else some (negative || isFinite ds exponent)
    | _ :: fraction =>
      let fs ← digits? Char.isDigit fraction
      some (negative || isFinite (ds ++ fs) (exponent - fs.length))
  checked.getD false

def isSpecialFloat (word : Text) : Bool :=
  (splitSign word).2 = Text.lit "inf" || (splitSign word).2 = Text.lit "nan"

def twoDigits? : Text → Option (Nat × Text)
  | a :: b :: t => if a.isDigit && b.isDigit then some (Text.ofDigits 10 [a, b], t) else none
  | _ => none

def isLeapYear (year : Nat) : Bool := year % 4 = 0 && (year % 100 ≠ 0 || year % 400 = 0)

def daysIn (year month : Nat) : Nat :=
  if month = 2 then (if isLeapYear year then 29 else 28)
  else if month = 4 || month = 6 || month = 9 || month = 11 then 30
  else 31

def day? : Text → Option Text
  | a :: b :: c :: d :: '-' :: t => do
    if [a, b, c, d].all Char.isDigit then
      match ← twoDigits? t with
      | (month, '-' :: t) =>
        let (day, t) ← twoDigits? t
        let year := Text.ofDigits 10 [a, b, c, d]
        if 1 ≤ month ∧ month ≤ 12 ∧ 1 ≤ day ∧ day ≤ daysIn year month then some t else none
      | _ => none
    else none
  | _ => none

def time? (t : Text) : Option Text := do
  match ← twoDigits? t with
  | (hour, ':' :: t) =>
    match ← twoDigits? t with
    | (minute, ':' :: t) =>
      let (second, t) ← twoDigits? t
      if hour ≤ 23 ∧ minute ≤ 59 ∧ second ≤ 60 then
        match t with
        | '.' :: f :: t => if f.isDigit then some (t.dropWhile Char.isDigit) else none
        | t => some t
      else none
    | _ => none
  | _ => none

def isOffset : Text → Bool
  | [] => true
  | [c] => c = 'Z' || c = 'z'
  | c :: t =>
    (c = '+' || c = '-') &&
      match twoDigits? t with
      | some (hour, ':' :: t) =>
        match twoDigits? t with
        | some (minute, []) => decide (hour ≤ 23 ∧ minute ≤ 59)
        | _ => false
      | _ => false

def isDate (t : Text) : Bool :=
  match day? t with
  | some [] => true
  | some (c :: rest) =>
    (c = 'T' || c = 't' || c = ' ') && (time? rest).any isOffset
  | none => time? t = some []

def ofWord? (word : Text) : Option Value :=
  if word = Text.lit "true" then some (.bool true)
  else if word = Text.lit "false" then some (.bool false)
  else if isDate word then some (.date word)
  else if isFloat word || isSpecialFloat word then some (.float word)
  else (integer? word).map .integer

def isWordChar (c : Char) : Bool := c.isAlphanum || ['+', '-', '_', '.', ':'].contains c

/-- A scalar and what follows it. A space between a day and a time belongs to the date. -/
def read (t : Text) : Option (Value × Text) := do
  let word := t.takeWhile isWordChar
  let rest := t.dropWhile isWordChar
  match day? word, rest with
  | some [], ' ' :: c :: more =>
    if c.isDigit then
      let full := word ++ ' ' :: (c :: more).takeWhile isWordChar
      some (← ofWord? full, (c :: more).dropWhile isWordChar)
    else some (← ofWord? word, rest)
  | _, _ => some (← ofWord? word, rest)

end Marginalia.Toml.Scalar
