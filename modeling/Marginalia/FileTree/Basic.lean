import Marginalia.Path.Basic
import Marginalia.Text.Utf8

/-!
File trees. A tree lists files, directories and symbolic links by where they stand; the topmost
directory is always there. A path is resolved piece by piece, and links are followed on the way.
-/

namespace Marginalia

/-- A place in a tree: the names that lead to it, the innermost first. -/
abbrev Place := List Text

inductive Node where
  | file (content : Bytes)
  | directory
  | link (target : Text)
  deriving DecidableEq

inductive FileError where
  | missing
  | notDirectory
  | isDirectory
  | tooManyLinks
  | notText
  deriving DecidableEq, Repr

def FileError.message : FileError → Text
  | missing => Text.lit "No such file or directory (os error 2)"
  | notDirectory => Text.lit "Not a directory (os error 20)"
  | isDirectory => Text.lit "Is a directory (os error 21)"
  | tooManyLinks => Text.lit "Too many levels of symbolic links (os error 40)"
  | notText => Text.lit "stream did not contain valid UTF-8"

structure FileTree where
  nodes : List (Place × Node) := []
  current : Place := []

namespace FileTree

def currentPath (tree : FileTree) : Text := '/' :: List.intercalate ['/'] tree.current.reverse

def node? (tree : FileTree) (place : Place) : Option Node :=
  if place.isEmpty then some .directory else tree.nodes.lookup place

def isDirectoryAt (tree : FileTree) (place : Place) : Bool := tree.node? place = some .directory

def namesIn (tree : FileTree) (place : Place) : List Text :=
  tree.nodes.filterMap fun entry =>
    match entry.1 with
    | [] => none
    | name :: parent => if parent = place then some name else none

inductive Purpose where
  | existing
  | creation
  deriving DecidableEq, Repr

/-- Follows pieces of a path from a place; `onLink` goes on where a link leads, with the pieces of
its target ahead of those that remain. A place to be created has a directory above it, and no slash
follows its name. -/
def followWith (tree : FileTree) (purpose : Purpose)
    (onLink : Place → List Text → Except FileError Place) (place : Place) :
    List Text → Except FileError Place
  | [] => .ok place
  | piece :: rest =>
    if !tree.isDirectoryAt place then .error .notDirectory
    else if Path.isFiller piece then tree.followWith purpose onLink place rest
    else if piece = ['.', '.'] then tree.followWith purpose onLink place.tail rest
    else if purpose = .creation && !rest.isEmpty && rest.all List.isEmpty then .error .isDirectory
    else
      match tree.node? (piece :: place) with
      | none =>
        if purpose = .creation && rest.isEmpty then .ok (piece :: place) else .error .missing
      | some (.link target) =>
        onLink (if Path.isAbsolute target then [] else place) (target.splitOn '/' ++ rest)
      | some _ => tree.followWith purpose onLink (piece :: place) rest

def follow (tree : FileTree) (purpose : Purpose) :
    Nat → Place → List Text → Except FileError Place
  | 0 => tree.followWith purpose fun _ _ => .error .tooManyLinks
  | links + 1 => tree.followWith purpose (tree.follow purpose links)

def linkLimit : Nat := 40

def resolve (tree : FileTree) (purpose : Purpose) (path : Text) : Except FileError Place :=
  if path.isEmpty then .error .missing
  else
    let start := if Path.isAbsolute path then [] else tree.current
    tree.follow purpose linkLimit start (path.splitOn '/')

def find (tree : FileTree) (path : Text) : Except FileError Node := do
  match tree.node? (← tree.resolve .existing path) with
  | some node => .ok node
  | none => .error .missing

def exists? (tree : FileTree) (path : Text) : Bool := (tree.find path).isOk

def isFile (tree : FileTree) (path : Text) : Bool :=
  match tree.find path with
  | .ok (.file _) => true
  | _ => false

def isDirectory (tree : FileTree) (path : Text) : Bool :=
  match tree.find path with
  | .ok .directory => true
  | _ => false

end FileTree

end Marginalia
