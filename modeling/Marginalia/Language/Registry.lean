import Marginalia.Language.Basic
import Marginalia.Path.Basic

/-!
The registry of languages by file extension. A language is entered under every extension it
declares, in place of any language entered there before. Look-ups ignore leading dots.
-/

namespace Marginalia

structure Registry where
  entries : List (Text × Language) := []

namespace Registry

def enter (r : Registry) (extension : Text) (language : Language) : Registry :=
  ⟨(extension, language) :: r.entries.filter fun entry => entry.1 ≠ extension⟩

def register (r : Registry) (language : Language) : Registry :=
  language.extensions.foldl (fun r extension => r.enter extension language) r

def standard : Registry :=
  Source.Dialect.all.foldl (fun r d => r.register (.ofDialect d)) {}

def byExtension? (r : Registry) (extension : Text) : Option Language :=
  r.entries.lookup (extension.dropWhile (· = '.'))

def forPath? (r : Registry) (path : Text) : Option Language :=
  (Path.extension? path).bind r.byExtension?

def supports (r : Registry) (path : Text) : Bool := (r.forPath? path).isSome

def forPath (r : Registry) (path : Text) : Except LanguageError Language :=
  match r.forPath? path with
  | some language => .ok language
  | none => .error (.unsupported ((Path.extension? path).getD []))

def extensions (r : Registry) : List Text := r.entries.map Prod.fst

end Registry

end Marginalia
