import Marginalia.Comment.Basic
import Marginalia.Comment.Options
import Marginalia.Json.Record

/-!
The JSON form of comments and options, in both directions.
-/

namespace Marginalia

def jsonFields (fields : List (String × Json)) : Json :=
  .object (fields.map fun field => (Text.lit field.1, field.2))

namespace CommentKind

def label : CommentKind → Text
  | line => Text.lit "Line"
  | block => Text.lit "Block"

def ofLabel? (t : Text) : Option CommentKind :=
  if t = Text.lit "Line" then some line
  else if t = Text.lit "Block" then some block
  else none

def toJson (kind : CommentKind) : Json := .string kind.label

/-- A kind is given by its label, or by an object with the label as its only field and null in
it. -/
def ofJson? : Json → Option CommentKind
  | .string t => ofLabel? t
  | .object [(t, .null)] => ofLabel? t
  | _ => none

end CommentKind

namespace Position

def toJson (p : Position) : Json :=
  jsonFields [("line", .natural p.line), ("column", .natural p.column)]

def ofJson? (v : Json) : Option Position := do
  match ← v.record? ["line", "column"] with
  | [some line, some column] => some ⟨← line.word?, ← column.word?⟩
  | _ => none

end Position

namespace Location

def toJson (l : Location) : Json :=
  jsonFields [("start", l.start.toJson), ("end", l.stop.toJson)]

def ofJson? (v : Json) : Option Location := do
  match ← v.record? ["start", "end"] with
  | [some start, some stop] => some ⟨← Position.ofJson? start, ← Position.ofJson? stop⟩
  | _ => none

end Location

namespace CommentNode

def toJson (n : CommentNode) : Json :=
  jsonFields [("type", n.kind.toJson),
    ("range", .array [.natural n.range.1, .natural n.range.2]),
    ("loc", n.location.toJson)]

def range? : Json → Option (Nat × Nat)
  | .array [first, last] => do some (← first.word?, ← last.word?)
  | _ => none

def ofJson? (v : Json) : Option CommentNode := do
  match ← v.record? ["type", "range", "loc"] with
  | [some kind, some range, some location] =>
    some ⟨← CommentKind.ofJson? kind, ← range? range, ← Location.ofJson? location⟩
  | _ => none

end CommentNode

namespace TagValue

def toJson : TagValue → Json
  | present v => .string v
  | flag => .bool true

def ofJson? : Json → Option TagValue
  | .string v => some (present v)
  | .bool true => some flag
  | _ => none

end TagValue

namespace Tag

def toJson (tag : Tag) : Json :=
  jsonFields [("name", .string tag.name), ("value", tag.value.toJson)]

def ofJson? (v : Json) : Option Tag := do
  match ← v.record? ["name", "value"] with
  | [some name, some value] => some ⟨← name.text?, ← TagValue.ofJson? value⟩
  | _ => none

end Tag

namespace Comment

def toJson (c : Comment) : Json :=
  jsonFields ([("start", .natural c.startLine), ("end", .natural c.endLine),
    ("lines", .array (c.lines.map .string)), ("jsDoc", .bool c.isDoc),
    ("tags", .array (c.tags.map Tag.toJson))] ++
    c.node.toList.map fun node => ("node", node.toJson))

def ofJson? (v : Json) : Option Comment := do
  match ← v.record? ["start", "end", "lines", "jsDoc", "tags", "node"] with
  | [some start, some stop, some lines, some isDoc, some tags, node] =>
    some {
      startLine := ← start.word?
      endLine := ← stop.word?
      lines := ← lines.list? Json.text?
      isDoc := ← isDoc.bool?
      tags := ← tags.list? Tag.ofJson?
      node := ← Json.optional? CommentNode.ofJson? node }
  | _ => none

end Comment

namespace FileComments

def toJson (f : FileComments) : Json :=
  jsonFields [("file", .string f.file), ("comments", .array (f.comments.map Comment.toJson))]

def ofJson? (v : Json) : Option FileComments := do
  match ← v.record? ["file", "comments"] with
  | [some file, some comments] => some ⟨← file.text?, ← comments.list? Comment.ofJson?⟩
  | _ => none

end FileComments

namespace TrimPolicy

def toJson (policy : TrimPolicy) : Json := .string policy.name

def ofJson? : Json → Option TrimPolicy
  | .bool b => some (ofBool b)
  | .string t => ofName? t
  | _ => none

end TrimPolicy

namespace Options

def fieldNames : List String := ["include_parser_node", "parse_tags", "remove_tag_lines", "trim"]

def toJson (o : Options) : Json :=
  let switch (b : Option Bool) : Json := (b.map Json.bool).getD .null
  jsonFields [("include_parser_node", switch o.includeNode), ("parse_tags", switch o.parseTags),
    ("remove_tag_lines", switch o.removeTagLines),
    ("trim", (o.trim.map TrimPolicy.toJson).getD .null)]

def ofJson? (v : Json) : Option Options := do
  match ← v.record? fieldNames with
  | [includeNode, parseTags, removeTagLines, trim] =>
    some {
      includeNode := ← Json.optional? Json.bool? includeNode
      parseTags := ← Json.optional? Json.bool? parseTags
      removeTagLines := ← Json.optional? Json.bool? removeTagLines
      trim := ← Json.optional? TrimPolicy.ofJson? trim }
  | _ => none

end Options

namespace Settings

def toJson (s : Settings) : Json :=
  jsonFields [("include_parser_node", .bool s.includeNode), ("parse_tags", .bool s.parseTags),
    ("remove_tag_lines", .bool s.removeTagLines), ("trim", s.trim.toJson)]

end Settings

end Marginalia
