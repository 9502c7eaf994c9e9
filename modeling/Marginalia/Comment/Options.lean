import Marginalia.Text.Blank

/-!
Extraction options. A layer of options leaves open what it does not say; layers are merged with
the stronger one first, and what no layer says has a built-in value.
-/

namespace Marginalia

inductive TrimPolicy where
  | full
  | rightOnly
  | untouched
  deriving DecidableEq, Repr

namespace TrimPolicy

def apply : TrimPolicy → Text → Text
  | full => Text.trim
  | rightOnly => Text.trimEnd
  | untouched => id

def name : TrimPolicy → Text
  | full => Text.lit "full"
  | rightOnly => Text.lit "right-only"
  | untouched => Text.lit "none"

def spellings : List (Text × TrimPolicy) :=
  [(Text.lit "full", full), (Text.lit "true", full), (Text.lit "right-only", rightOnly),
    (Text.lit "right", rightOnly), (Text.lit "none", untouched), (Text.lit "false", untouched),
    ([], untouched)]

def ofName? (t : Text) : Option TrimPolicy := spellings.lookup t

def ofBool (b : Bool) : TrimPolicy := if b then full else untouched

def unknownMessage (t : Text) : Text :=
  Text.lit "unknown trim policy '" ++ t ++ Text.lit "' (expected full, right-only or none)"

end TrimPolicy

structure Options where
  includeNode : Option Bool := none
  parseTags : Option Bool := none
  removeTagLines : Option Bool := none
  trim : Option TrimPolicy := none
  deriving DecidableEq, Repr

structure Settings where
  includeNode : Bool
  parseTags : Bool
  removeTagLines : Bool
  trim : TrimPolicy
  deriving DecidableEq, Repr

namespace Options

def or (stronger weaker : Options) : Options where
  includeNode := stronger.includeNode <|> weaker.includeNode
  parseTags := stronger.parseTags <|> weaker.parseTags
  removeTagLines := stronger.removeTagLines <|> weaker.removeTagLines
  trim := stronger.trim <|> weaker.trim

def resolve (options : Options) : Settings where
  includeNode := options.includeNode.getD false
  parseTags := options.parseTags.getD true
  removeTagLines := options.removeTagLines.getD true
  trim := options.trim.getD .full

end Options

end Marginalia
