import Marginalia.Text.Basic

/-!
JSON values. Natural numbers have a case of their own; every other number keeps its literal. The
fields of an object stay in order, repeated names included.
-/

namespace Marginalia

inductive Json where
  | null
  | bool (b : Bool)
  | natural (n : Nat)
  | decimal (literal : Text)
  | string (t : Text)
  | array (items : List Json)
  | object (fields : List (Text × Json))

namespace Json

def valuesOf (name : Text) (fields : List (Text × Json)) : List Json :=
  fields.filterMap fun field => if field.1 = name then some field.2 else none

def get? (name : String) : Json → Option Json
  | object fields => (valuesOf (Text.lit name) fields).head?
  | _ => none

end Json

end Marginalia
