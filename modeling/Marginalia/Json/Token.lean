import Marginalia.Json.Basic
import Marginalia.Text.Digits

/-!
The tokens of JSON texts. Numbers have no leading zeros and no leading plus sign, strings hold no
bare control characters, and escaped surrogates come in pairs.
-/

namespace Marginalia.Json

inductive Token where
  | openArray
  | closeArray
  | openObject
  | closeObject
  | comma
  | colon
  | null
  | bool (b : Bool)
  | natural (n : Nat)
  | decimal (literal : Text)
  | string (t : Text)
  deriving DecidableEq, Repr

namespace Token

def isSpace (c : Char) : Bool := c = ' ' || c = '\t' || c = '\n' || c = '\r'

def isHighSurrogate (n : Nat) : Bool := 0xD800 ≤ n && n < 0xDC00

def isLowSurrogate (n : Nat) : Bool := 0xDC00 ≤ n && n < 0xE000

def ofUnit? (n : Nat) : Option Char :=
  if isHighSurrogate n || isLowSurrogate n then none else some (Char.ofNat n)

def ofPair? (high low : Nat) : Option Char :=
  if isHighSurrogate high && isLowSurrogate low then
    some (Char.ofNat (0x10000 + (high - 0xD800) * 0x400 + (low - 0xDC00)))
  else none

def escape? : Char → Option Char
  | '"' => some '"'
  | '\\' => some '\\'
  | '/' => some '/'
  | 'b' => some '\x08'
  | 'f' => some '\x0c'
  | 'n' => some '\n'
  | 'r' => some '\r'
  | 't' => some '\t'
  | _ => none

/-- The content of a string, after its opening quote and the characters already read (latest
first), and what follows its closing quote. -/
def readString? (read : Text) : List Char → Option (Text × List Char)
  | [] => none
  | '\\' :: 'u' :: a :: b :: c :: d :: '\\' :: 'u' :: e :: f :: g :: h :: cs => do
    let high ← Text.ofHex? [a, b, c, d]
    match ofUnit? high with
    | some ch => readString? (ch :: read) ('\\' :: 'u' :: e :: f :: g :: h :: cs)
    | none => readString? ((← ofPair? high (← Text.ofHex? [e, f, g, h])) :: read) cs
  | '\\' :: 'u' :: a :: b :: c :: d :: cs => do
    readString? ((← ofUnit? (← Text.ofHex? [a, b, c, d])) :: read) cs
  | '\\' :: c :: cs => do readString? ((← escape? c) :: read) cs
  | c :: cs =>
    if c = '"' then some (read.reverse, cs)
    else if c < ' ' || c = '\\' then none
    else readString? (c :: read) cs

def afterFraction? : Text → Option Text
  | '.' :: cs =>
    if (cs.head?.map Char.isDigit).getD false then some (cs.dropWhile Char.isDigit) else none
  | cs => some cs

def afterExponent? : Text → Option Text
  | [] => some []
  | c :: cs =>
    if c = 'e' || c = 'E' then
      let ds := match cs with
        | '+' :: ds | '-' :: ds => ds
        | ds => ds
      if (ds.head?.map Char.isDigit).getD false then some (ds.dropWhile Char.isDigit) else none
    else some (c :: cs)

def ofLiteral? (literal : Text) : Option Token :=
  let unsigned := if literal.head? = some '-' then literal.tail else literal
  let whole := unsigned.takeWhile Char.isDigit
  let rest := unsigned.dropWhile Char.isDigit
  if whole.isEmpty || (whole.head? = some '0' && whole.length ≠ 1) then none
  else if rest.isEmpty && literal.head? ≠ some '-' then some (.natural (Text.ofDigits 10 whole))
  else if (afterFraction? rest).bind afterExponent? = some [] then some (.decimal literal)
  else none

def isNumberChar (c : Char) : Bool :=
  c.isDigit || c = '+' || c = '-' || c = '.' || c = 'e' || c = 'E'

def read? (c : Char) (cs : List Char) : Option (Token × List Char) :=
  match c, cs with
  | '[', _ => some (.openArray, cs)
  | ']', _ => some (.closeArray, cs)
  | '\x7b', _ => some (.openObject, cs)
  | '\x7d', _ => some (.closeObject, cs)
  | ',', _ => some (.comma, cs)
  | ':', _ => some (.colon, cs)
  | '"', _ => (readString? [] cs).map fun r => (.string r.1, r.2)
  | 'n', 'u' :: 'l' :: 'l' :: rest => some (.null, rest)
  | 't', 'r' :: 'u' :: 'e' :: rest => some (.bool true, rest)
  | 'f', 'a' :: 'l' :: 's' :: 'e' :: rest => some (.bool false, rest)
  | _, _ =>
    if c.isDigit || c = '-' then
      (ofLiteral? (c :: cs.takeWhile isNumberChar)).map fun t => (t, cs.dropWhile isNumberChar)
    else none

theorem length_readString {read : Text} {cs : List Char} {r : Text × List Char}
    (h : readString? read cs = some r) : r.2.length ≤ cs.length := by
  fun_induction readString? read cs with
  | case1 => simp at h
  | case2 read a b c d e f g h' cs ih1 ih2 =>
    simp only [Option.bind_eq_bind, Option.bind_eq_some_iff] at h
    obtain ⟨high, -, h⟩ := h
    split at h
    · have := ih1 _ h
      simp only [List.length_cons] at this ⊢
      omega
    · simp only [Option.bind_eq_some_iff] at h
      obtain ⟨low, -, ch, -, h⟩ := h
      have := ih2 _ h
      simp only [List.length_cons]
      omega
  | case3 read a b c d cs _ ih =>
    simp only [Option.bind_eq_bind, Option.bind_eq_some_iff] at h
    obtain ⟨n, -, ch, -, h⟩ := h
    have := ih _ h
    simp only [List.length_cons]
    omega
  | case4 read c cs _ _ ih =>
    simp only [Option.bind_eq_bind, Option.bind_eq_some_iff] at h
    obtain ⟨ch, -, h⟩ := h
    have := ih _ h
    simp only [List.length_cons]
    omega
  | case5 =>
    cases h
    simp
  | case6 => simp at h
  | case7 read c cs _ _ _ _ _ ih =>
    have := ih h
    simp only [List.length_cons]
    omega

theorem length_dropWhile_le (p : Char → Bool) (cs : List Char) :
    (cs.dropWhile p).length ≤ cs.length :=
  (List.dropWhile_suffix p).length_le

theorem length_read {c : Char} {cs : List Char} {r : Token × List Char}
    (h : read? c cs = some r) : r.2.length ≤ cs.length := by
  unfold read? at h
  split at h
  case h_7 =>
    obtain ⟨s, hs, rfl⟩ := Option.map_eq_some_iff.1 h
    exact length_readString hs
  case h_11 =>
    split at h
    · obtain ⟨t, -, rfl⟩ := Option.map_eq_some_iff.1 h
      exact length_dropWhile_le _ _
    · simp at h
  all_goals
    cases h
    simp only [List.length_cons, Nat.le_refl]
    try omega

def readFrom? (read : List Token) : List Char → Option (List Token)
  | [] => some read.reverse
  | c :: cs =>
    if isSpace c then readFrom? read cs
    else
      match _h : read? c cs with
      | some r => readFrom? (r.1 :: read) r.2
      | none => none
termination_by cs => cs.length
decreasing_by
  · simp
  · have := length_read _h
    simp only [List.length_cons]
    omega

def readAll? (t : Text) : Option (List Token) := readFrom? [] t

end Token

end Marginalia.Json
