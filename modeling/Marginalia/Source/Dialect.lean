import Marginalia.Text.Basic

/-!
The dialects of the JavaScript family. JavaScript and TSX have markup expressions, TypeScript and
TSX have types.
-/

namespace Marginalia.Source

inductive Dialect where
  | javascript
  | typescript
  | tsx
  deriving DecidableEq, Repr

namespace Dialect

def name : Dialect → Text
  | javascript => Text.lit "javascript"
  | typescript => Text.lit "typescript"
  | tsx => Text.lit "tsx"

def title : Dialect → Text
  | javascript => Text.lit "JavaScript"
  | typescript => Text.lit "TypeScript"
  | tsx => Text.lit "Tsx"

def extensions : Dialect → List Text
  | javascript => [Text.lit "js", Text.lit "mjs", Text.lit "cjs", Text.lit "jsx"]
  | typescript => [Text.lit "ts", Text.lit "mts", Text.lit "cts"]
  | tsx => [Text.lit "tsx"]

def all : List Dialect := [javascript, typescript, tsx]

def hasMarkup : Dialect → Bool
  | typescript => false
  | _ => true

def hasTypes : Dialect → Bool
  | javascript => false
  | _ => true

end Dialect

end Marginalia.Source
