import Marginalia.Comment.Encoding
import Marginalia.Json.Printer
import Marginalia.Report.Text

/-!
Reports in their formats: JSON, compact or indented, and plain text.
-/

namespace Marginalia.Report

inductive Format where
  | json
  | text
  deriving DecidableEq, Repr

namespace Format

def name : Format → Text
  | json => Text.lit "json"
  | text => Text.lit "text"

def ofName? (t : Text) : Option Format :=
  if t = Text.lit "json" then some json
  else if t = Text.lit "text" then some text
  else none

end Format

def filesJson (indented : Bool) (files : List FileComments) : Text :=
  Json.print indented (.array (files.map FileComments.toJson))

def commentsJson (indented : Bool) (comments : List Comment) : Text :=
  Json.print indented (.array (comments.map Comment.toJson))

def files (format : Format) (indented : Bool) (fs : List FileComments) : Text :=
  match format with
  | .json => filesJson indented fs
  | .text => text fs

def unnamed (format : Format) (indented : Bool) (comments : List Comment) : Text :=
  match format with
  | .json => commentsJson indented comments
  | .text => text [⟨['-'], comments⟩]

end Marginalia.Report
