import Marginalia.Source.Structure

/-!
The comments of a script, in order, each with its body and its place.
-/

namespace Marginalia.Source

/-- The kind and the body of a comment, given its whole text. The body of a line comment does not
hold the carriage return of its line end. -/
def undelimit (text : Text) : CommentKind × Text :=
  match Text.after? ['/', '*'] text with
  | some body => (.block, ((['*', '/'] : Text).isSuffixOf? body).getD body)
  | none =>
    let body := (Text.after? ['/', '/'] text <|> Text.after? (Text.lit "<!--") text <|>
      Text.after? (Text.lit "-->") text).getD text
    (.line, Text.dropFinal '\r' body)

def Lexeme.rawComment (l : Lexeme) : RawComment :=
  let (kind, value) := undelimit l.text
  { value
    startLine := l.start.line
    endLine := l.stop.line
    node := some {
      kind
      range := (l.start.offset, l.stop.offset)
      location := ⟨l.start.position, l.stop.position⟩ } }

def structureOf (d : Dialect) (source : Text) : Tree Part :=
  Structure.ofLexemes (Lexeme.scan d source)

def comments (d : Dialect) (source : Text) : List RawComment :=
  let parts := (Tree.Cursor.atRoot (structureOf d source)).collect Part.isComment []
  (parts.filterMap Part.lexeme?).map Lexeme.rawComment

end Marginalia.Source
