import Marginalia.Comment.Edges
import Marginalia.Comment.Options

/-!
The lines of a comment body. Line ends are a line feed with an optional carriage return before
it. A doc block, or a body with a star margin, loses one leading star from each line; the decision
is made once for the whole body.
-/

namespace Marginalia.Body

def split (value : Text) : List Text :=
  (value.splitOn '\n').map (Text.dropFinal '\r')

def afterMarker? (line : Text) : Option Text :=
  Text.after? ['*'] (Text.trimStart line)

def stripMarker (line : Text) : Text := (afterMarker? line).getD line

def hasMarker (line : Text) : Bool := (afterMarker? line).isSome

def isDocBlock (value : Text) : Bool :=
  match (split value).head? with
  | some first => Text.trim first == ['*']
  | none => false

def hasStarMargin (value : Text) : Bool :=
  decide (1 < (split value).length) &&
    ((split value).filter fun l => !Text.isBlank l).all hasMarker

def stripsMarkers (value : Text) : Bool := isDocBlock value || hasStarMargin value

def cleanLine (strip : Bool) (trim : TrimPolicy) (line : Text) : Text :=
  trim.apply (if strip then stripMarker line else line)

def normalize (value : Text) (strip : Bool) (trim : TrimPolicy) : List Text :=
  Edges.cut ((split value).map (cleanLine strip trim))

end Marginalia.Body
