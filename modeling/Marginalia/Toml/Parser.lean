import Marginalia.Toml.Scalar
import Marginalia.Toml.Strings
import Marginalia.Toml.Table

/-!
Reading TOML documents. A reader answers what it has read and what follows it. Arrays and inline
tables nest less than eighty deep, and a key has less than eighty parts.
-/

namespace Marginalia.Toml

open Strings (isBlank isPlain startsLine dropLineEnd)

def skipBlanks (t : Text) : Text := t.dropWhile isBlank

def skipGap (inComment : Bool) : Text → Text
  | [] => []
  | c :: rest =>
    if startsLine (c :: rest) then skipGap false rest
    else if inComment then (if isPlain c then skipGap true rest else c :: rest)
    else if isBlank c then skipGap false rest
    else if c = '#' then skipGap true rest
    else c :: rest

def endOfLine? (t : Text) : Option Text :=
  let rest := match skipBlanks t with
    | '#' :: comment => comment.dropWhile isPlain
    | rest => rest
  if rest.isEmpty || startsLine rest then some (dropLineEnd rest) else none

def expect? (c : Char) (t : Text) : Option Text := Text.after? [c] t

def isBareKeyChar (c : Char) : Bool := c.isAlphanum || c = '-' || c = '_'

def simpleKey? (t : Text) : Option (Text × Text) :=
  match t with
  | '"' :: rest => Strings.basic rest
  | '\'' :: rest => Strings.literal rest
  | t =>
    if (t.takeWhile isBareKeyChar).isEmpty then none
    else some (t.takeWhile isBareKeyChar, t.dropWhile isBareKeyChar)

def key? (parts : Nat) (t : Text) : Option (List Text × Text) :=
  match parts with
  | 0 => none
  | parts + 1 => do
    let (first, rest) ← simpleKey? (skipBlanks t)
    match skipBlanks rest with
    | '.' :: rest =>
      let (others, rest) ← key? parts rest
      some (first :: others, rest)
    | rest => some ([first], rest)

def limit : Nat := 79

def keyBefore? (sign : Char) (t : Text) : Option ((List Text × Text) × Text) := do
  let (parts, rest) ← key? limit t
  some ((parts.dropLast, ← parts.getLast?), ← expect? sign rest)

mutual

/-- A value of at most the given depth. The first argument bounds the number of steps. -/
def value? (steps depth : Nat) (t : Text) : Option (Value × Text) :=
  match steps with
  | 0 => none
  | steps + 1 =>
    match t, depth with
    | '[' :: rest, depth + 1 => do
      let (items, rest) ← items? steps depth rest
      some (.array items, rest)
    | '[' :: _, 0 => none
    | '\x7b' :: rest, depth + 1 => do
      let (pairs, rest) ← match skipBlanks rest with
        | '\x7d' :: rest => some ([], rest)
        | rest => pairs? steps depth rest
      some (.table (entryValues (← Entries.addPairs? [] pairs)), rest)
    | '\x7b' :: _, 0 => none
    | '"' :: _, _ => (Strings.read t).map fun (s, rest) => (.string s, rest)
    | '\'' :: _, _ => (Strings.read t).map fun (s, rest) => (.string s, rest)
    | _, _ => Scalar.read t

def items? (steps depth : Nat) (t : Text) : Option (List Value × Text) :=
  match steps with
  | 0 => none
  | steps + 1 =>
    match skipGap false t with
    | ']' :: rest => some ([], rest)
    | start => do
      let (v, rest) ← value? steps depth start
      match skipGap false rest with
      | ',' :: rest =>
        let (vs, rest) ← items? steps depth rest
        some (v :: vs, rest)
      | ']' :: rest => some ([v], rest)
      | _ => none

def pairs? (steps depth : Nat) (t : Text) : Option (List Pair × Text) :=
  match steps with
  | 0 => none
  | steps + 1 => do
    let ((path, key), rest) ← keyBefore? '=' t
    let (v, rest) ← value? steps depth (skipBlanks rest)
    match skipBlanks rest with
    | ',' :: rest =>
      let (ps, rest) ← pairs? steps depth rest
      some (⟨path, key, v⟩ :: ps, rest)
    | '\x7d' :: rest => some ([⟨path, key, v⟩], rest)
    | _ => none

end

inductive Line where
  | empty
  | pair (p : Pair)
  | header (isRepeated : Bool) (path : List Text) (key : Text)

def line? (t : Text) : Option (Line × Text) :=
  match skipBlanks t with
  | '[' :: '[' :: rest => do
    let ((path, key), rest) ← keyBefore? ']' rest
    some (.header true path key, ← endOfLine? (← expect? ']' rest))
  | '[' :: rest => do
    let ((path, key), rest) ← keyBefore? ']' rest
    some (.header false path key, ← endOfLine? rest)
  | start =>
    match endOfLine? start with
    | some rest => some (.empty, rest)
    | none => do
      let ((path, key), rest) ← keyBefore? '=' start
      let (v, rest) ← value? (2 * rest.length + 2) limit (skipBlanks rest)
      some (.pair ⟨path, key, v⟩, ← endOfLine? rest)

def lines? (count : Nat) (t : Text) : Option (List Line) :=
  match count, t with
  | _, [] => some []
  | 0, _ => none
  | count + 1, t => do
    let (l, rest) ← line? t
    some (l :: (← lines? count rest))

def sections : List Line → List Pair × List Section
  | [] => ([], [])
  | .empty :: ls => sections ls
  | .pair p :: ls =>
    let (pairs, rest) := sections ls
    (p :: pairs, rest)
  | .header isRepeated path key :: ls =>
    let (pairs, rest) := sections ls
    ([], ⟨isRepeated, path, key, pairs⟩ :: rest)

/-- The table that a document states. A mark of the byte order at its start does not count. -/
def read? (t : Text) : Option Value := do
  let t := (Text.after? ['\ufeff'] t).getD t
  let (pairs, rest) := sections (← lines? (t.length + 1) t)
  document? pairs rest

end Marginalia.Toml
