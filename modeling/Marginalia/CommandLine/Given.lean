import Marginalia.CommandLine.Basic

/-!
What has been given at one level of the command line. Every argument but exclusions and paths is
given at most once; a flag takes its opposite back, after which either may be given again.
-/

namespace Marginalia.CommandLine

structure Given where
  flags : List Flag := []
  root : Option Text := none
  ext : Option Text := none
  format : Option Report.Format := none
  output : Option Text := none
  trim : Option TrimPolicy := none
  exclude : List Text := []
  paths : List Text := []
  deriving DecidableEq, Repr

namespace Given

def isNothing (g : Given) : Bool := g.flags.isEmpty && g.root.isNone

def addFlag (g : Given) (f : Flag) : Except Refusal Given :=
  if f ∈ g.flags then .error .repeated
  else .ok { g with flags := f :: g.flags.filter fun e => f.opposite? ≠ some e }

def once {α β : Type} (old : Option α) (value : Except Refusal β) : Except Refusal (Option β) :=
  match old with
  | some _ => .error .repeated
  | none => value.map some

def checkPath (path : Text) : Except Refusal Text :=
  if path.isEmpty then .error .invalidValue else .ok path

def checkFormat (name : Text) : Except Refusal Report.Format :=
  match Report.Format.ofName? name with
  | some format => .ok format
  | none => .error .invalidValue

def checkTrim (name : Text) : Except Refusal TrimPolicy :=
  match TrimPolicy.ofName? name with
  | some policy => .ok policy
  | none => .error .unknownTrimPolicy

def addValue (g : Given) (p : Parameter) (value : Text) : Except Refusal Given :=
  match p with
  | .root => do .ok { g with root := ← once g.root (checkPath value) }
  | .ext => do .ok { g with ext := ← once g.ext (.ok value) }
  | .format => do .ok { g with format := ← once g.format (checkFormat value) }
  | .output => do .ok { g with output := ← once g.output (checkPath value) }
  | .trim => do .ok { g with trim := ← once g.trim (checkTrim value) }
  | .exclude => .ok { g with exclude := g.exclude ++ [value] }

def addPaths (g : Given) (paths : List Text) : Except Refusal Given := do
  .ok { g with paths := g.paths ++ (← paths.mapM checkPath) }

def switch (g : Given) (on off : Flag) : Option Bool :=
  if on ∈ g.flags then some true
  else if off ∈ g.flags then some false
  else none

def options (g : Given) : Options where
  includeNode := g.switch .includeNode .noIncludeNode
  parseTags := g.switch .tags .noTags
  removeTagLines := g.switch .removeTagLines .keepTagLines
  trim := g.trim

end Given

end Marginalia.CommandLine
