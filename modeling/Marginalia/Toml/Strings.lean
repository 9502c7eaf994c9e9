import Marginalia.Text.Digits

/-!
TOML strings. Each reader starts after the opening delimiter and answers the content and what
follows the closing delimiter. Control characters other than the tab do not occur; several lines
are allowed only between triple delimiters, where every line end reads as a line feed.
-/

namespace Marginalia.Toml.Strings

def isBlank (c : Char) : Bool := c = ' ' || c = '\t'

def isPlain (c : Char) : Bool := c = '\t' || (' ' ≤ c && c ≠ '\x7f')

def scalar? (digits : List Char) : Option Char := do
  let n ← Text.ofHex? digits
  if n.isValidChar then some (Char.ofNat n) else none

def simpleEscape? (c : Char) : Option Char :=
  [('b', '\x08'), ('t', '\t'), ('n', '\n'), ('f', '\x0c'), ('r', '\r'), ('"', '"'),
    ('\\', '\\')].lookup c

def startsLine (t : Text) : Bool :=
  match t with
  | '\n' :: _ => true
  | '\r' :: '\n' :: _ => true
  | _ => false

def dropLineEnd : Text → Text
  | '\n' :: t => t
  | '\r' :: '\n' :: t => t
  | t => t

def prepend (c : Char) (r : Option (Text × Text)) : Option (Text × Text) :=
  r.map fun (t, rest) => (c :: t, rest)

def basic : Text → Option (Text × Text)
  | [] => none
  | '"' :: rest => some ([], rest)
  | '\\' :: 'u' :: a :: b :: c :: d :: rest => do prepend (← scalar? [a, b, c, d]) (basic rest)
  | '\\' :: 'U' :: a :: b :: c :: d :: e :: f :: g :: h :: rest => do
    prepend (← scalar? [a, b, c, d, e, f, g, h]) (basic rest)
  | '\\' :: c :: rest => do prepend (← simpleEscape? c) (basic rest)
  | c :: rest => if isPlain c && c ≠ '\\' then prepend c (basic rest) else none

def literal : Text → Option (Text × Text)
  | [] => none
  | '\'' :: rest => some ([], rest)
  | c :: rest => if isPlain c then prepend c (literal rest) else none

/-- Up to two more delimiters after a closing triple one belong to the content. -/
def closing (c : Char) (rest : Text) : Text × Text :=
  let extra := (rest.takeWhile (· = c)).take 2
  (extra, rest.drop extra.length)

/-- A string between triple quotes. A backslash at the end of a line removes the line end and all
white space and line ends after it; `skipping` says that such white space is being left out. -/
def basicLines (skipping : Bool) : Text → Option (Text × Text)
  | [] => none
  | c :: rest =>
    if skipping && (isBlank c || startsLine (c :: rest)) then basicLines true rest
    else
      match c, rest with
      | '\n', rest => prepend '\n' (basicLines false rest)
      | '\r', '\n' :: rest => prepend '\n' (basicLines false rest)
      | '"', '"' :: '"' :: rest => some (closing '"' rest)
      | '"', rest => prepend '"' (basicLines false rest)
      | '\\', 'u' :: a :: b :: c :: d :: rest => do
        prepend (← scalar? [a, b, c, d]) (basicLines false rest)
      | '\\', 'U' :: a :: b :: c :: d :: e :: f :: g :: h :: rest => do
        prepend (← scalar? [a, b, c, d, e, f, g, h]) (basicLines false rest)
      | '\\', c :: rest =>
        if startsLine ((c :: rest).dropWhile isBlank) then basicLines true (c :: rest)
        else do prepend (← simpleEscape? c) (basicLines false rest)
      | c, rest => if isPlain c && c ≠ '\\' then prepend c (basicLines false rest) else none

def literalLines : Text → Option (Text × Text)
  | [] => none
  | '\n' :: rest => prepend '\n' (literalLines rest)
  | '\r' :: '\n' :: rest => prepend '\n' (literalLines rest)
  | '\'' :: '\'' :: '\'' :: rest => some (closing '\'' rest)
  | c :: rest => if isPlain c then prepend c (literalLines rest) else none

def read : Text → Option (Text × Text)
  | '"' :: '"' :: '"' :: rest => basicLines false (dropLineEnd rest)
  | '"' :: rest => basic rest
  | '\'' :: '\'' :: '\'' :: rest => literalLines (dropLineEnd rest)
  | '\'' :: rest => literal rest
  | _ => none

end Marginalia.Toml.Strings
