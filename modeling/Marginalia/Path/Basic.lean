import Marginalia.Text.Basic

/-!
Paths. A path is a text with slashes; what it names is the sequence of its components, in which
repeated slashes and inner dots do not count. Paths are compared by components.
-/

namespace Marginalia.Path

inductive Component where
  | root
  | current
  | parent
  | name (n : Text)
  deriving DecidableEq, Repr

def isFiller (piece : Text) : Bool := piece = [] || piece = ['.']

def Component.ofPiece (piece : Text) : Component :=
  if piece = ['.', '.'] then parent else name piece

def Component.ofFirst (piece : Text) : Component :=
  if piece = [] then root else if piece = ['.'] then current else ofPiece piece

def inner (pieces : List Text) : List Component :=
  (pieces.filter fun p => !isFiller p).map Component.ofPiece

def components (path : Text) : List Component :=
  if path.isEmpty then []
  else
    match path.splitOn '/' with
    | [] => []
    | first :: rest => .ofFirst first :: inner rest

def isAbsolute (path : Text) : Bool := path.head? = some '/'

def join (base path : Text) : Text :=
  if isAbsolute path || base.isEmpty then path
  else if base.getLast? = some '/' then base ++ path
  else base ++ '/' :: path

def fileName? (path : Text) : Option Text :=
  match (components path).getLast? with
  | some (.name n) => some n
  | _ => none

def nameExtension? (name : Text) : Option Text :=
  let extension := (name.reverse.takeWhile (· ≠ '.')).reverse
  let stem := (name.reverse.dropWhile (· ≠ '.')).tail
  if name.contains '.' && !stem.isEmpty then some extension else none

def extension? (path : Text) : Option Text := (fileName? path).bind nameExtension?

namespace Component

def rank : Component → Nat
  | root => 0
  | current => 1
  | parent => 2
  | name _ => 3

def before : Component → Component → Bool
  | name m, name n => decide (m < n)
  | c, d => decide (c.rank < d.rank)

end Component

def componentsLe : List Component → List Component → Bool
  | [], _ => true
  | _ :: _, [] => false
  | c :: cs, d :: ds => c.before d || (c == d && componentsLe cs ds)

def le (p q : Text) : Bool := componentsLe (components p) (components q)

def same (p q : Text) : Bool := components p == components q

def skip : Nat → List Text → List Text
  | 0, pieces => pieces
  | _ + 1, [] => []
  | n + 1, p :: pieces => if isFiller p then skip (n + 1) pieces else skip n pieces

def dropLastFillers (pieces : List Text) : List Text := (pieces.reverse.dropWhile isFiller).reverse

def ofPieces (pieces : List Text) : Text :=
  List.intercalate ['/'] (dropLastFillers (pieces.dropWhile isFiller))

/-- The path without fillers at its end; a slash that it starts with stays. -/
def trimEnd (path : Text) : Text :=
  match path.splitOn '/' with
  | [] => path
  | first :: rest =>
    let kept := dropLastFillers rest
    if isAbsolute path && kept.isEmpty then ['/'] else List.intercalate ['/'] (first :: kept)

/-- What follows the components of `base` in `path`, if it starts with them. The text of what
remains is kept, fillers inside it included. -/
def relativeTo? (base path : Text) : Option Text :=
  let front := components base
  if front.isPrefixOf (components path) then
    match front.length with
    | 0 => some (trimEnd path)
    | n + 1 => some (ofPieces (skip n (path.splitOn '/').tail))
  else none

def relativeTo (base path : Text) : Text := (relativeTo? base path).getD path

end Marginalia.Path
