import Marginalia.Text.Basic

/-!
Comments before and after normalization. A raw comment is a body with the lines it spans and,
optionally, where it stands in the source; a normalized comment has clean lines and tags.
-/

namespace Marginalia

inductive CommentKind where
  | line
  | block
  deriving DecidableEq, Repr

/-- A place in a source: lines count from one, columns are bytes from the start of the line. -/
structure Position where
  line : Nat
  column : Nat
  deriving DecidableEq, Repr

structure Location where
  start : Position
  stop : Position
  deriving DecidableEq, Repr

structure CommentNode where
  kind : CommentKind
  range : Nat × Nat
  location : Location
  deriving DecidableEq, Repr

structure RawComment where
  value : Text
  startLine : Nat
  endLine : Nat
  node : Option CommentNode
  deriving DecidableEq, Repr

inductive TagValue where
  | present (value : Text)
  | flag
  deriving DecidableEq, Repr

namespace TagValue

def text? : TagValue → Option Text
  | present v => some v
  | flag => none

def isFlag : TagValue → Bool
  | present _ => false
  | flag => true

def display : TagValue → Text
  | present v => v
  | flag => Text.lit "true"

end TagValue

structure Tag where
  name : Text
  value : TagValue
  deriving DecidableEq, Repr

structure Comment where
  startLine : Nat
  endLine : Nat
  lines : List Text
  isDoc : Bool
  tags : List Tag
  node : Option CommentNode
  deriving DecidableEq, Repr

def Comment.tagsNamed (comment : Comment) (name : Text) : List Tag :=
  comment.tags.filter fun tag => tag.name = name

structure FileComments where
  file : Text
  comments : List Comment
  deriving DecidableEq, Repr

end Marginalia
