import Marginalia.Path.Basic

/-!
Sorted lists of paths without repetition, where paths with the same components count as one.
-/

namespace Marginalia.Path

def distinctAfter (last : Text) : List Text → List Text
  | [] => []
  | p :: ps => if same last p then distinctAfter last ps else p :: distinctAfter p ps

def distinct : List Text → List Text
  | [] => []
  | p :: ps => p :: distinctAfter p ps

def sorted (paths : List Text) : List Text := distinct (paths.mergeSort le)

end Marginalia.Path
