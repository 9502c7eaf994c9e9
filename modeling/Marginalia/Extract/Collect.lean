import Marginalia.FileTree.Walk
import Marginalia.Glob.Exclusion
import Marginalia.Language.Registry
import Marginalia.Path.Sorted

/-!
The files that a request is about. A file that is named is always among them. A directory that is
named is walked; walks leave out some directories by their names, everything that a pattern
matches, and files in no known language.
-/

namespace Marginalia.Extract

structure Scope where
  tree : FileTree
  registry : Registry
  root : Text
  patterns : List Glob.Pattern

def skippedNames : List Text :=
  [Text.lit "node_modules", Text.lit ".git", Text.lit "target", Text.lit "dist", Text.lit "build"]

def isSkipped (path : Text) : Bool := skippedNames.contains ((Path.fileName? path).getD path)

namespace Scope

def admits (s : Scope) (path : Text) (isDirectory : Bool) : Bool :=
  !(isDirectory && isSkipped path) && !Glob.excludes s.patterns (Path.relativeTo s.root path)

def isWanted (s : Scope) (path : Text) : Bool := s.tree.isFile path && s.registry.supports path

def collect (s : Scope) (start : Text) : List Text :=
  if s.tree.isFile start then [start] else (s.tree.walk s.admits start).filter s.isWanted

def filesOf (s : Scope) (path : Text) : List Text := s.collect (Path.join s.root path)

def inputs (s : Scope) (paths : List Text) : List Text := if paths.isEmpty then [s.root] else paths

def files (s : Scope) (paths : List Text) : List Text :=
  Path.sorted ((s.inputs paths).flatMap s.filesOf)

def warning? (s : Scope) (path : Text) : Option LogEntry :=
  let full := Path.join s.root path
  if s.tree.isFile full || s.tree.isDirectory full then none
  else some (.warning (Text.lit "Skipping " ++ full ++ Text.lit ": no such file or directory"))

def warnings (s : Scope) (paths : List Text) : List LogEntry :=
  (s.inputs paths).filterMap s.warning?

end Scope

end Marginalia.Extract
