import Marginalia.Text.Utf8
import Marginalia.Comment.Basic

/-!
Marks: how far a reader of a source has come, in bytes, in rows and in bytes of the row. Rows end
at line feeds only.
-/

namespace Marginalia.Source

structure Mark where
  offset : Nat := 0
  row : Nat := 0
  column : Nat := 0
  deriving DecidableEq, Repr

namespace Mark

def step (m : Mark) (c : Char) : Mark :=
  if c = '\n' then ⟨m.offset + 1, m.row + 1, 0⟩
  else ⟨m.offset + c.utf8Size, m.row, m.column + c.utf8Size⟩

def advance (m : Mark) (t : Text) : Mark := t.foldl step m

def line (m : Mark) : Nat := m.row + 1

def position (m : Mark) : Position := ⟨m.line, m.column⟩

end Mark

end Marginalia.Source
