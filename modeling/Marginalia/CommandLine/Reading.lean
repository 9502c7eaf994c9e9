import Marginalia.CommandLine.Given

/-!
Reading the words of one level of the command line. A value that stands in a word of its own, and
paths, are kept pending until the next argument, so that they are checked only then.
-/

namespace Marginalia.CommandLine

inductive Pending where
  | awaiting (p : Parameter)
  | value (p : Parameter) (value : Text)
  | paths (paths : List Text)
  deriving DecidableEq, Repr

structure Reading where
  level : Level
  given : Given := {}
  pending : Option Pending := none
  onlyPaths : Bool := false
  deriving DecidableEq, Repr

namespace Reading

def settle (r : Reading) : Except Refusal Given :=
  match r.pending with
  | none => .ok r.given
  | some (.awaiting _) => .error .invalidValue
  | some (.value p v) => r.given.addValue p v
  | some (.paths ps) => r.given.addPaths ps

def isAwaiting (r : Reading) : Bool :=
  match r.pending with
  | some (.awaiting _) => true
  | _ => false

def flag (r : Reading) (f : Flag) : Except Refusal Reading := do
  let given ← r.settle
  match f with
  | .help => .error .help
  | .version => .error (.version r.level.versionLine)
  | f => .ok { r with given := ← given.addFlag f, pending := none }

def attached (r : Reading) (p : Parameter) (value : Text) : Except Refusal Reading := do
  .ok { r with given := ← (← r.settle).addValue p value, pending := none }

def await (r : Reading) (p : Parameter) : Except Refusal Reading := do
  .ok { r with given := ← r.settle, pending := some (.awaiting p) }

def long (r : Reading) (word : Text) : Except Refusal Reading :=
  let name := word.takeWhile (· ≠ '=')
  let value := word.dropWhile (· ≠ '=')
  match r.level.names.lookup name, value with
  | none, _ => .error .unknownArgument
  | some (.flag f), [] => r.flag f
  | some (.flag _), _ :: _ => .error .unexpectedValue
  | some (.parameter p), [] => r.await p
  | some (.parameter p), _ :: value => r.attached p value

/-- A word that begins with one hyphen, which is left out here: any number of flags, and possibly
a parameter with the rest of the word as its value. -/
def short (r : Reading) : Text → Except Refusal Reading
  | [] => .ok r
  | c :: rest =>
    match r.level.letters.lookup c with
    | none => .error .unknownArgument
    | some (.flag f) => do short (← r.flag f) rest
    | some (.parameter p) =>
      match rest with
      | [] => r.await p
      | '=' :: value => r.attached p value
      | value => r.attached p value

def path (r : Reading) (word : Text) : Except Refusal Reading :=
  match r.pending with
  | some (.paths ps) => .ok { r with pending := some (.paths (ps ++ [word])) }
  | _ => do .ok { r with given := ← r.settle, pending := some (.paths [word]) }

def plain (r : Reading) (other : Reading → Text → Except Refusal Reading) (word : Text) :
    Except Refusal Reading :=
  match r.pending with
  | some (.awaiting p) => .ok { r with pending := some (.value p word) }
  | _ => other r word

/-- One word, where `other` reads the words that are neither arguments with hyphens nor values. -/
def word (r : Reading) (other : Reading → Text → Except Refusal Reading) (w : Text) :
    Except Refusal Reading :=
  if r.onlyPaths then other r w
  else
    match w with
    | ['-', '-'] => .ok { r with onlyPaths := true }
    | '-' :: '-' :: rest => r.long rest
    | '-' :: c :: rest => r.short (c :: rest)
    | w => r.plain other w

end Reading

end Marginalia.CommandLine
