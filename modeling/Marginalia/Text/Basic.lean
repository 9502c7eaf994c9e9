/-!
Texts as sequences of characters, and the few operations on them that every part of the library
shares: literals, numerals, removal of a known beginning or ending, and joining with line feeds.
-/

namespace Marginalia

abbrev Text := List Char

namespace Text

def lit (s : String) : Text := s.toList

def numeral (n : Nat) : Text := Nat.toDigits 10 n

def after? (start t : Text) : Option Text := start.isPrefixOf? t

def dropFinal (c : Char) (t : Text) : Text :=
  if t.getLast? = some c then t.dropLast else t

def holds (part : Text) : Text → Bool
  | [] => part.isEmpty
  | c :: cs => part.isPrefixOf (c :: cs) || holds part cs

def joinLines (ts : List Text) : Text := List.intercalate ['\n'] ts

def replaceChar (c d : Char) (t : Text) : Text := t.map fun x => if x = c then d else x

def terminated (t : Text) : Text :=
  if t.getLast? = some '\n' then t else t ++ ['\n']

end Text

end Marginalia
