import Marginalia.Json.Token

/-!
Reading JSON texts. A machine with a stack of open arrays and objects takes the tokens one by one,
so depth of nesting costs no recursion.
-/

namespace Marginalia.Json

/-- An array or object that is still open; what it holds so far stands latest first. -/
inductive OpenValue where
  | array (items : List Json)
  | object (fields : List (Text × Json)) (name : Text)

inductive ReaderState where
  | value (around : List OpenValue)
  | arrayStart (around : List OpenValue)
  | objectStart (around : List OpenValue)
  | name (around : List OpenValue) (fields : List (Text × Json))
  | colon (around : List OpenValue) (fields : List (Text × Json)) (name : Text)
  | complete (around : List OpenValue) (value : Json)

namespace ReaderState

def beginValue? (around : List OpenValue) : Token → Option ReaderState
  | .null => some (complete around .null)
  | .bool b => some (complete around (.bool b))
  | .natural n => some (complete around (.natural n))
  | .decimal l => some (complete around (.decimal l))
  | .string t => some (complete around (.string t))
  | .openArray => some (arrayStart around)
  | .openObject => some (objectStart around)
  | _ => none

def next? : ReaderState → Token → Option ReaderState
  | value around, token => beginValue? around token
  | arrayStart around, .closeArray => some (complete around (.array []))
  | arrayStart around, token => beginValue? (.array [] :: around) token
  | objectStart around, .closeObject => some (complete around (.object []))
  | objectStart around, .string n => some (colon around [] n)
  | name around fields, .string n => some (colon around fields n)
  | colon around fields n, .colon => some (value (.object fields n :: around))
  | complete (.array items :: around) v, .comma => some (value (.array (v :: items) :: around))
  | complete (.array items :: around) v, .closeArray =>
    some (complete around (.array (v :: items).reverse))
  | complete (.object fields n :: around) v, .comma => some (name around ((n, v) :: fields))
  | complete (.object fields n :: around) v, .closeObject =>
    some (complete around (.object ((n, v) :: fields).reverse))
  | _, _ => none

def result? : ReaderState → Option Json
  | complete [] v => some v
  | _ => none

end ReaderState

def ofTokens? (tokens : List Token) : Option Json := do
  (← tokens.foldlM ReaderState.next? (.value [])).result?

def read? (t : Text) : Option Json := do ofTokens? (← Token.readAll? t)

end Marginalia.Json
