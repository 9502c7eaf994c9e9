import Marginalia.CommandLine.Invocation
import Marginalia.Lists
import Marginalia.Proofs.Text.Parts

/-! What one word of a command line comes to: which flag it sets, which name it gives for the trim policy, and
whether the next word is such a name. -/

namespace Marginalia.CommandLine

structure Opposed (on off : Flag) : Prop where
  on_off : on.opposite? = some off

section Opposed

variable {on off f : Flag}

end Opposed

namespace Given

variable {g g' : Given} {on off f : Flag}

def policies (g : Given) : List (Option TrimPolicy) := g.trim.toList.map some

end Given

namespace Reading

variable {r r' : Reading} {given : Given}

def policies (r : Reading) : List (Option TrimPolicy) :=
  r.given.policies ++
    match r.pending with
    | some (.value .trim name) => [TrimPolicy.ofName? name]
    | _ => []

def awaitsTrim (r : Reading) : Bool := r.pending = some (.awaiting .trim)

/-- Reading goes on with a flag set, with names given for the trim policy, and with such a name to come. -/
structure Step (r : Reading) (flag : Option Flag) (names : List Text) (awaits : Bool) (r' : Reading) : Prop where
  level : r'.level = r.level
  onlyPaths : r'.onlyPaths = r.onlyPaths
  switch : ∀ on off, Opposed on off → r'.given.switch on off =
    if flag = some on then some true else if flag = some off then some false else r.given.switch on off
  policies : r'.policies = r.policies ++ names.map TrimPolicy.ofName?
  awaits : r'.awaitsTrim = awaits

section Short

variable {c : Char} {f : Flag} {p : Parameter} {word : Text}

end Short

section Long

variable {name value word : Text} {a : Argument}

end Long

section Word

variable {other : Reading → Text → Except Refusal Reading} {word : Text}

end Word

end Reading

end Marginalia.CommandLine
