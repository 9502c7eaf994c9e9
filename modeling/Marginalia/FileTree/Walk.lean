import Marginalia.FileTree.Basic
import Marginalia.Lists

/-!
Walks through a directory and all that is below it. Links are followed, but a link to a directory
that the walk is in the middle of is left out, so that every walk ends.
-/

namespace Marginalia.FileTree

def directories (tree : FileTree) : List Place :=
  [] :: tree.nodes.filterMap fun entry => if entry.2 = .directory then some entry.1 else none

def height (tree : FileTree) : Nat :=
  tree.nodes.foldr (fun entry n => entry.1.length + n) 0

def unopened (tree : FileTree) (chain : List Place) : Nat :=
  tree.directories.countP fun place => !chain.contains place

theorem mem_nodes {tree : FileTree} {name : Text} {place : Place} {node : Node}
    (h : tree.node? (name :: place) = some node) : (name :: place, node) ∈ tree.nodes :=
  mem_of_lookup (by simpa [node?] using h)

theorem mem_directories {tree : FileTree} {place : Place} (h : tree.isDirectoryAt place = true) :
    place ∈ tree.directories := by
  cases place with
  | nil => simp [directories]
  | cons name place =>
    have := mem_nodes (of_decide_eq_true h)
    simp only [directories, List.mem_cons, List.mem_filterMap]
    exact .inr ⟨_, this, by simp⟩

theorem length_le_height {tree : FileTree} {name : Text} {place : Place} {node : Node}
    (h : tree.node? (name :: place) = some node) : place.length + 1 ≤ tree.height := by
  have hm := mem_nodes h
  unfold height
  generalize tree.nodes = nodes at hm
  induction nodes with
  | nil => simp at hm
  | cons entry nodes ih =>
    rw [List.foldr_cons]
    rcases List.mem_cons.1 hm with rfl | hm
    · simp
    · have := ih hm
      omega

theorem unopened_cons_le (tree : FileTree) (chain : List Place) (place : Place) :
    tree.unopened (place :: chain) ≤ tree.unopened chain :=
  List.countP_mono_left fun p _ h => by simp_all

theorem unopened_cons_lt {tree : FileTree} {chain : List Place} {place : Place}
    (h : tree.isDirectoryAt place = true) (hc : place ∉ chain) :
    tree.unopened (place :: chain) < tree.unopened chain :=
  countP_lt_of_mem (fun p hp => by simp_all) (mem_directories h) (by simp) (by simp [hc])

/-- The files below a directory, by their paths. `admits` decides about each path, given whether
it is one of a directory; `chain` holds the directories that are open, this one included. -/
def filesIn (tree : FileTree) (admits : Text → Bool → Bool) (chain : List Place) (place : Place)
    (path : Text) : List Text :=
  (tree.namesIn place).flatMap fun name =>
    let here := Path.join path name
    match _hn : tree.node? (name :: place) with
    | none => []
    | some (.file _) => if admits here false then [here] else []
    | some .directory =>
      if admits here true then
        tree.filesIn admits ((name :: place) :: chain) (name :: place) here
      else []
    | some (.link _) =>
      match tree.follow .existing linkLimit place [name] with
      | .error _ => []
      | .ok target =>
        if _hd : tree.isDirectoryAt target then
          if _hc : target ∈ chain then []
          else if admits here true then tree.filesIn admits (target :: chain) target here
          else []
        else if admits here false then [here] else []
termination_by (tree.unopened chain, tree.height - place.length)
decreasing_by
  · have := length_le_height _hn
    have := tree.unopened_cons_le chain (name :: place)
    simp only [Prod.lex_def, List.length_cons]
    omega
  · exact Prod.Lex.left _ _ (unopened_cons_lt _hd _hc)

def walk (tree : FileTree) (admits : Text → Bool → Bool) (path : Text) : List Text :=
  match tree.resolve .existing path with
  | .error _ => []
  | .ok place =>
    if tree.isDirectoryAt place && admits path true then tree.filesIn admits [place] place path
    else []

end Marginalia.FileTree
