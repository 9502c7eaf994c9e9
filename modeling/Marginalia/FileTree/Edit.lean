import Marginalia.FileTree.Basic

/-!
Reading and changing file trees.
-/

namespace Marginalia.FileTree

def readBytes (tree : FileTree) (path : Text) : Except FileError Bytes := do
  match ← tree.find path with
  | .file content => .ok content
  | _ => .error .isDirectory

def readText (tree : FileTree) (path : Text) : Except FileError Text := do
  match Text.decode? (← tree.readBytes path) with
  | some text => .ok text
  | none => .error .notText

def put (tree : FileTree) (place : Place) (node : Node) : FileTree :=
  { tree with nodes := (place, node) :: tree.nodes.filter fun entry => entry.1 ≠ place }

def write (tree : FileTree) (path : Text) (content : Bytes) : Except FileError FileTree := do
  let place ← tree.resolve .creation path
  if tree.isDirectoryAt place then .error .isDirectory
  else .ok (tree.put place (.file content))

def makeAlong (tree : FileTree) (done : Text) : List Text → Except FileError FileTree
  | [] => .ok tree
  | piece :: rest => do
    let path := done ++ piece
    let tree ←
      if path.isEmpty || tree.isDirectory path then .ok tree
      else .ok (tree.put (← tree.resolve .creation path) .directory)
    tree.makeAlong (path ++ ['/']) rest

def makeDirectories (tree : FileTree) (path : Text) : Except FileError FileTree :=
  tree.makeAlong [] (path.splitOn '/')

def splitLast (path : Text) : Text × Text :=
  let pieces := path.splitOn '/'
  (List.intercalate ['/'] pieces.dropLast ++ ['/'], pieces.getLast?.getD [])

/-- The place of an entry itself, which may be a link, in a directory that exists. -/
def entryPlace (tree : FileTree) (path : Text) : Except FileError Place := do
  let (above, name) := splitLast path
  let start := if path.contains '/' then above else ['.']
  .ok (name :: (← tree.resolve .existing start))

def makeLink (tree : FileTree) (path target : Text) : Except FileError FileTree := do
  .ok (tree.put (← tree.entryPlace path) (.link target))

def remove (tree : FileTree) (path : Text) : Except FileError FileTree := do
  let place ← tree.entryPlace path
  .ok { tree with nodes := tree.nodes.filter fun entry => !place.isSuffixOf entry.1 }

end Marginalia.FileTree
