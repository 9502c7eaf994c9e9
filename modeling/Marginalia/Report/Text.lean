import Marginalia.Comment.Tags

/-!
The report in plain text. Each file has a heading with its number of comments; each comment has a
line with its bounds, then its lines and its tags, indented. An empty line stays empty.
-/

namespace Marginalia.Report

def bounds (c : Comment) : Text :=
  Text.lit "  L" ++ Text.numeral c.startLine ++ '-' :: Text.numeral c.endLine ++
    (if c.isDoc then Text.lit " doc" else [])

def indented (line : Text) : Text := if line.isEmpty then [] else Text.lit "    " ++ line

def commentLines (c : Comment) : List Text :=
  bounds c :: c.lines.map indented ++ c.tags.map fun tag => Text.lit "    " ++ tag.toLine

def heading (f : FileComments) : Text :=
  f.file ++ Text.lit " (" ++ Text.numeral f.comments.length ++ Text.lit " comments)"

def fileLines (f : FileComments) : List Text := heading f :: f.comments.flatMap commentLines

def text (files : List FileComments) : Text :=
  (files.flatMap fileLines).flatMap fun line => line ++ ['\n']

end Marginalia.Report
