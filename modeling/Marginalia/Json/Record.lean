import Marginalia.Json.Basic

/-!
Records read from JSON values. A record is given as an object, where unknown fields are ignored and
known ones stand at most once, or as an array of its values in order, where values may be missing at
the end. Each reader of a type answers nothing for a value that is not of the type.
-/

namespace Marginalia.Json

def record? (names : List String) : Json → Option (List (Option Json))
  | object fields =>
    names.mapM fun name =>
      match valuesOf (Text.lit name) fields with
      | [] => some none
      | [v] => some (some v)
      | _ => none
  | array items =>
    if items.length ≤ names.length then
      some (items.map some ++ List.replicate (names.length - items.length) none)
    else none
  | _ => none

def wordBound : Nat := 18446744073709551616

def word? : Json → Option Nat
  | natural n => if n < wordBound then some n else none
  | _ => none

def text? : Json → Option Text
  | string t => some t
  | _ => none

def bool? : Json → Option Bool
  | bool b => some b
  | _ => none

def list? {α : Type} (item? : Json → Option α) : Json → Option (List α)
  | array items => items.mapM item?
  | _ => none

def optional? {α : Type} (value? : Json → Option α) : Option Json → Option (Option α)
  | none => some none
  | some null => some none
  | some v => (value? v).map some

end Marginalia.Json
