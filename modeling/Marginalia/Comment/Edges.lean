import Marginalia.Text.Blank

/-!
Blank lines at both ends of a list of lines are dropped, those inside are kept. Two forms are
given: `window` selects a stretch of the list, `cut` shortens the list at its end and then at its
start.
-/

namespace Marginalia.Edges

def firstSolid? (lines : List Text) : Option Nat :=
  lines.findIdx? fun l => !Text.isBlank l

def lastSolid? (lines : List Text) : Option Nat :=
  (lines.reverse.findIdx? fun l => !Text.isBlank l).map fun i => lines.length - 1 - i

def window (lines : List Text) : List Text :=
  match firstSolid? lines with
  | none => []
  | some first =>
    let last := (lastSolid? lines).getD first
    (lines.drop first).take (last + 1 - first)

def cut (lines : List Text) : List Text :=
  match firstSolid? lines with
  | none => []
  | some first =>
    let last := (lastSolid? lines).getD first
    (lines.take (last + 1)).drop first

end Marginalia.Edges
