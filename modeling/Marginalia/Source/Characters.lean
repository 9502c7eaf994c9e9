import Marginalia.Text.Blank

/-!
Character classes of scripts and the extent of their lexemes. Each extent is a number of
characters, counted after those that have already been read.
-/

namespace Marginalia.Source

def isGap (c : Char) : Bool :=
  Text.isSpace c || c = '\ufeff' || c = '\u200b' || c = '\u2060'

def isLineEnd (c : Char) : Bool := c = '\n' || c = '\r' || c = '\u2028' || c = '\u2029'

/-- A markup-style comment, and a statement without semicolon, end before these. -/
def isRowEnd (c : Char) : Bool := c = '\n' || c = '\u2028' || c = '\u2029'

def isNameStart (c : Char) : Bool :=
  c.isAlpha || c = '_' || c = '$' || ('\u0080' ≤ c && !isGap c)

def isWordChar (c : Char) : Bool := isNameStart c || c.isDigit || c = '#' || c = '\\'

def runLength (p : Char → Bool) (cs : List Char) : Nat := (cs.takeWhile p).length

def blockExtent? (cs : List Char) : Option Nat := go 0 cs
where
  go (n : Nat) : List Char → Option Nat
    | [] => none
    | c :: cs =>
      match c, cs with
      | '*', '/' :: _ => some (n + 2)
      | _, _ => go (n + 1) cs

/-- The extent of a string literal, given what follows its opening quote. A line that ends inside
the literal ends it; a backslash takes the next character, and a whole line end, with it. -/
def quotedExtent (quote : Char) : List Char → Nat
  | [] => 0
  | '\\' :: '\r' :: '\n' :: cs => quotedExtent quote cs + 3
  | '\\' :: _ :: cs => quotedExtent quote cs + 2
  | c :: cs =>
    if c = quote then 1
    else if c = '\n' || c = '\r' then 0
    else quotedExtent quote cs + 1

/-- The extent of a regular expression literal, its flags included, given what follows its opening
slash. A slash inside a character class does not close it, and it never leaves its line. -/
def regexExtent? (inClass : Bool) : List Char → Option Nat
  | [] => none
  | '\\' :: c :: cs => if c = '\n' then none else (regexExtent? inClass cs).map (· + 2)
  | c :: cs =>
    if c = '\n' then none
    else if inClass then (regexExtent? (c ≠ ']') cs).map (· + 1)
    else if c = '/' then some (1 + runLength isWordChar cs)
    else (regexExtent? (c = '[') cs).map (· + 1)

/-- The extent of type arguments, given what follows their first bracket and how many brackets are
open: up to the last closing bracket. The bracket of an arrow does not close any. -/
def typeArgumentsExtent (depth : Nat) : List Char → Nat
  | [] => 0
  | '=' :: '>' :: cs => typeArgumentsExtent depth cs + 2
  | '<' :: cs => typeArgumentsExtent (depth + 1) cs + 1
  | '>' :: cs => if depth ≤ 1 then 1 else typeArgumentsExtent (depth - 1) cs + 1
  | _ :: cs => typeArgumentsExtent depth cs + 1

def templateExtent : List Char → Nat
  | [] => 0
  | '\\' :: _ :: cs => templateExtent cs + 2
  | '$' :: '\x7b' :: _ => 0
  | c :: cs => if c = '\x60' then 0 else templateExtent cs + 1

end Marginalia.Source
