import Marginalia.Comment.Options
import Marginalia.Report.Format

/-!
The vocabulary of the command line: flags, parameters with a value, the two levels at which they
are known, and the reasons for which a command line is refused.
-/

namespace Marginalia.CommandLine

inductive Flag where
  | help
  | version
  | verbose
  | pretty
  | includeNode
  | noIncludeNode
  | tags
  | noTags
  | removeTagLines
  | keepTagLines
  deriving DecidableEq, Repr

def Flag.opposite? : Flag → Option Flag
  | includeNode => some noIncludeNode
  | noIncludeNode => some includeNode
  | tags => some noTags
  | noTags => some tags
  | removeTagLines => some keepTagLines
  | keepTagLines => some removeTagLines
  | _ => none

inductive Parameter where
  | root
  | ext
  | format
  | output
  | trim
  | exclude
  deriving DecidableEq, Repr

inductive Argument where
  | flag (f : Flag)
  | parameter (p : Parameter)
  deriving DecidableEq, Repr

inductive Level where
  | program
  | command
  deriving DecidableEq, Repr

namespace Level

def commonNames : List (Text × Argument) :=
  [(Text.lit "help", .flag .help), (Text.lit "version", .flag .version),
    (Text.lit "verbose", .flag .verbose), (Text.lit "root", .parameter .root)]

def commandNames : List (Text × Argument) :=
  [(Text.lit "pretty", .flag .pretty), (Text.lit "include-node", .flag .includeNode),
    (Text.lit "no-include-node", .flag .noIncludeNode), (Text.lit "tags", .flag .tags),
    (Text.lit "no-tags", .flag .noTags), (Text.lit "remove-tag-lines", .flag .removeTagLines),
    (Text.lit "keep-tag-lines", .flag .keepTagLines), (Text.lit "ext", .parameter .ext),
    (Text.lit "format", .parameter .format), (Text.lit "output", .parameter .output),
    (Text.lit "trim", .parameter .trim), (Text.lit "exclude", .parameter .exclude)]

def names : Level → List (Text × Argument)
  | program => commonNames
  | command => commonNames ++ commandNames

def commonLetters : List (Char × Argument) :=
  [('h', .flag .help), ('V', .flag .version), ('v', .flag .verbose), ('r', .parameter .root)]

def letters : Level → List (Char × Argument)
  | program => commonLetters
  | command => commonLetters ++ [('o', .parameter .output)]

def versionLine : Level → Text
  | program => Text.lit "jscomments 0.1.0\n"
  | command => Text.lit "jscomments-extract 0.1.0\n"

end Level

inductive Refusal where
  | help
  | version (line : Text)
  | nothingGiven
  | missingCommand
  | unknownCommand
  | unknownArgument
  /-- A value is missing, is not among those allowed, or is an empty path. -/
  | invalidValue
  | unknownTrimPolicy
  | unexpectedValue
  | repeated
  deriving DecidableEq, Repr

def Refusal.status : Refusal → Nat
  | help => 0
  | version _ => 0
  | _ => 2

end Marginalia.CommandLine
