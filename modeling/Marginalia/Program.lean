import Marginalia.Extract.Run

/-!
The whole program: its command line, its log and its exit status.
-/

namespace Marginalia.Program

open CommandLine (Invocation Refusal)

def logLevels : List (Text × Option LogLevel) :=
  [(Text.lit "off", none), ([], some .error), (Text.lit "error", some .error),
    (Text.lit "warn", some .warning), (Text.lit "info", some .warning),
    (Text.lit "debug", some .debug), (Text.lit "trace", some .debug)]

def logLevel (setting : Option Text) (verbose : Bool) : Option LogLevel :=
  match setting.bind fun name => logLevels.lookup name with
  | some level => level
  | none => some (if verbose then .debug else .warning)

def isShown (level : Option LogLevel) (entry : LogEntry) : Bool :=
  level.any fun l => entry.level.rank ≤ l.rank

structure Outcome where
  status : Nat
  stdout : Text := []
  failure : Option Text := none
  log : List LogEntry := []
  tree : FileTree

def refused (tree : FileTree) (refusal : Refusal) : Outcome where
  status := refusal.status
  stdout := match refusal with
    | .version line => line
    | _ => []
  tree := tree

def run (tree : FileTree) (words : List Text) (logSetting : Option Text) (stdin : Bytes) :
    Outcome :=
  match Invocation.parse words with
  | .error refusal => refused tree refusal
  | .ok invocation =>
    let root := invocation.root.getD tree.currentPath
    let done := Extract.run tree root invocation.request stdin
    let level := logLevel logSetting invocation.verbose
    let failure := match done.result with
      | .ok _ => none
      | .error e => some e.message
    { status := if failure.isSome then 1 else 0
      stdout := done.stdout
      failure
      log := done.log.filter (isShown level)
      tree := done.tree }

end Marginalia.Program
