import Marginalia.Comment.Basic
import Marginalia.Comment.Edges

/-!
Tag lines. A line whose first character is `@` is a tag: its name ends at the first space, the
rest, trimmed, is its value, and without a value it is a flag.
-/

namespace Marginalia.Tag

def ofLine? (line : Text) : Option Tag :=
  match line with
  | '@' :: rest =>
    let value := Text.trim (rest.dropWhile (· ≠ ' '))
    some {
      name := Text.trim (rest.takeWhile (· ≠ ' '))
      value := if value.isEmpty then .flag else .present value }
  | _ => none

def toLine (tag : Tag) : Text :=
  match tag.value with
  | .present v => '@' :: tag.name ++ ' ' :: v
  | .flag => '@' :: tag.name

structure Extracted where
  tags : List Tag
  lines : List Text
  deriving DecidableEq, Repr

/-- The tags that the lines state, in order. If tag lines are removed, blank lines at the ends of
what remains go with them; otherwise the lines stay as they are. -/
def extract (lines : List Text) (removeTagLines : Bool) : Extracted where
  tags := lines.filterMap ofLine?
  lines := if removeTagLines then Edges.cut (lines.filter fun l => (ofLine? l).isNone) else lines

end Marginalia.Tag
