import Marginalia.Json.Basic
import Marginalia.Text.Digits

/-!
Writing JSON texts, either compactly or with one item per line, indented by two spaces. Strings
escape the quote, the backslash and the control characters below the space, and nothing else.
-/

namespace Marginalia.Json

def escape (c : Char) : Text :=
  if c = '"' then ['\\', '"']
  else if c = '\\' then ['\\', '\\']
  else if c = '\x08' then ['\\', 'b']
  else if c = '\t' then ['\\', 't']
  else if c = '\n' then ['\\', 'n']
  else if c = '\x0c' then ['\\', 'f']
  else if c = '\r' then ['\\', 'r']
  else if c < ' ' then
    Text.lit "\\u00" ++ [Text.hexDigit (c.toNat / 16), Text.hexDigit (c.toNat % 16)]
  else [c]

def quote (t : Text) : Text := '"' :: t.flatMap escape ++ ['"']

def printBool : Bool → Text
  | true => Text.lit "true"
  | false => Text.lit "false"

mutual

def compact : Json → Text
  | null => Text.lit "null"
  | bool b => printBool b
  | natural n => Text.numeral n
  | decimal l => l
  | string t => quote t
  | array items => '[' :: compactItems items ++ [']']
  | object fields => '\x7b' :: compactFields fields ++ ['\x7d']

def compactItems : List Json → Text
  | [] => []
  | [v] => compact v
  | v :: vs => compact v ++ ',' :: compactItems vs

def compactFields : List (Text × Json) → Text
  | [] => []
  | [(n, v)] => quote n ++ ':' :: compact v
  | (n, v) :: fields => quote n ++ ':' :: compact v ++ ',' :: compactFields fields

end

def newLine (depth : Nat) : Text := '\n' :: List.replicate (2 * depth) ' '

mutual

def pretty (depth : Nat) : Json → Text
  | null => Text.lit "null"
  | bool b => printBool b
  | natural n => Text.numeral n
  | decimal l => l
  | string t => quote t
  | array [] => ['[', ']']
  | array (v :: vs) => '[' :: prettyItems (depth + 1) (v :: vs) ++ newLine depth ++ [']']
  | object [] => ['\x7b', '\x7d']
  | object (f :: fs) => '\x7b' :: prettyFields (depth + 1) (f :: fs) ++ newLine depth ++ ['\x7d']

def prettyItems (depth : Nat) : List Json → Text
  | [] => []
  | [v] => newLine depth ++ pretty depth v
  | v :: vs => newLine depth ++ pretty depth v ++ ',' :: prettyItems depth vs

def prettyFields (depth : Nat) : List (Text × Json) → Text
  | [] => []
  | [(n, v)] => newLine depth ++ quote n ++ ':' :: ' ' :: pretty depth v
  | (n, v) :: fields =>
    newLine depth ++ quote n ++ ':' :: ' ' :: pretty depth v ++ ',' :: prettyFields depth fields

end

def print (indented : Bool) (v : Json) : Text := if indented then pretty 0 v else compact v

end Marginalia.Json
