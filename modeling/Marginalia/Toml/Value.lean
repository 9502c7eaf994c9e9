import Marginalia.Json.Basic

/-!
TOML values, and the JSON values that stand for them. Integers are those of 64 bits with a sign;
other numbers and dates keep their literals.
-/

namespace Marginalia.Toml

inductive Value where
  | string (t : Text)
  | integer (n : Int)
  | float (literal : Text)
  | bool (b : Bool)
  | date (literal : Text)
  | array (items : List Value)
  | table (entries : List (Text × Value))

namespace Value

mutual

def toJson : Value → Json
  | string t => .string t
  | integer (.ofNat n) => .natural n
  | integer (.negSucc n) => .decimal ('-' :: Text.numeral (n + 1))
  | float literal => .decimal literal
  | bool b => .bool b
  | date literal => .object [(Text.lit "date", .string literal)]
  | array items => .array (itemsToJson items)
  | table entries => .object (entriesToJson entries)

def itemsToJson : List Value → List Json
  | [] => []
  | v :: vs => toJson v :: itemsToJson vs

def entriesToJson : List (Text × Value) → List (Text × Json)
  | [] => []
  | (k, v) :: es => (k, toJson v) :: entriesToJson es

end

end Value

end Marginalia.Toml
