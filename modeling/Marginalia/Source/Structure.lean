import Marginalia.Source.Lexeme
import Marginalia.Source.Tree

/-!
The structure of a script: a tree whose leaves are its lexemes in order and whose inner nodes are
the constructs that they open and close.
-/

namespace Marginalia.Source

inductive Part where
  | script
  | construct
  | lexeme (l : Lexeme)

namespace Part

def isComment : Part → Bool
  | lexeme l => l.kind.isComment
  | _ => false

def lexeme? : Part → Option Lexeme
  | lexeme l => some l
  | _ => none

end Part

/-- The constructs that are open while a tree is built: the parts of the innermost one and of those
around it, each list latest first. -/
structure Structure where
  inner : List (Tree Part) := []
  outer : List (List (Tree Part)) := []

namespace Structure

def depth (s : Structure) : Nat := s.outer.length

def openConstruct (s : Structure) : Structure := ⟨[], s.inner :: s.outer⟩

def closeConstruct (s : Structure) : Structure :=
  match s.outer with
  | parts :: outer => ⟨.node .construct s.inner.reverse :: parts, outer⟩
  | [] => s

def add (s : Structure) (l : Lexeme) : Structure := { s with inner := .leaf (.lexeme l) :: s.inner }

/-- A lexeme is the first part of the constructs that it opens and the last of those it closes. -/
def extend (s : Structure) (l : Lexeme) : Structure :=
  let opened := Nat.repeat openConstruct (l.depth - s.depth) s
  Nat.repeat closeConstruct (opened.depth - l.depth) (opened.add l)

def finish (s : Structure) : Tree Part :=
  .node .script (Nat.repeat closeConstruct s.depth s).inner.reverse

def ofLexemes (ls : List Lexeme) : Tree Part := (ls.foldl extend {}).finish

end Structure

end Marginalia.Source
