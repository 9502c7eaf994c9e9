import Marginalia.CommandLine.Invocation
import Marginalia.Config
import Marginalia.Extract.Collect
import Marginalia.Extract.File

/-!
Carrying out a request. Options given in the request come before those of the configuration. A
file that fails is reported and counted, and the others are still extracted.
-/

namespace Marginalia.Extract

open CommandLine (Request)

structure Run where
  result : Except Failure Unit
  stdout : Text
  log : List LogEntry
  tree : FileTree

def emit (tree : FileTree) (root : Text) (output : Option Text) (report : Text) :
    Except Failure (Text × FileTree) :=
  match output with
  | none => .ok (Text.terminated report, tree)
  | some path => do
    let path := Path.join root path
    let changed ← (tree.write path (Text.bytes (Text.terminated report))).mapError .output
    .ok ([], changed)

/-- A run that ends with the given report, or with a failure ahead of it, or with a failure that
is told only after the report has been written. -/
def finish (tree : FileTree) (root : Text) (request : Request) (log : List LogEntry)
    (report : Except Failure Text) (after : Except Failure Unit) : Run :=
  match report.bind (emit tree root request.output) with
  | .error e => { result := .error e, stdout := [], log, tree }
  | .ok (stdout, changed) => { result := after, stdout, log, tree := changed }

def inputReport (registry : Registry) (request : Request) (options : Options) (stdin : Bytes) :
    Except Failure Text := do
  match Text.decode? stdin with
  | none => .error (.input .notText)
  | some source =>
    let comments ← unnamed registry request.ext source options
    .ok (Report.unnamed request.format request.pretty comments)

def successes (results : List (Text × Except Failure FileComments)) : List FileComments :=
  results.filterMap fun r => r.2.toOption

def failure? (result : Text × Except Failure FileComments) : Option LogEntry :=
  match result.2 with
  | .ok _ => none
  | .error e =>
    some (.error (Text.lit "Error processing " ++ result.1 ++ Text.lit ": " ++ e.message))

def failures (results : List (Text × Except Failure FileComments)) : List LogEntry :=
  results.filterMap failure?

def results (scope : Scope) (options : Options) (paths : List Text) :
    List (Text × Except Failure FileComments) :=
  (scope.files paths).map fun path =>
    (path, file scope.tree scope.registry scope.root options path)

def run (tree : FileTree) (root : Text) (request : Request) (stdin : Bytes) : Run :=
  let (config, configLog) := Config.load tree root
  let options := request.options.or config.options
  let log := configLog ++ [.debug (Text.lit "resolved extraction options")]
  if request.readsStdin then
    finish tree root request log (inputReport .standard request options stdin) (.ok ())
  else
    let excluded := config.exclude ++ request.exclude
    let scope : Scope := { tree, registry := .standard, root, patterns := Glob.patterns excluded }
    let rs := results scope options request.paths
    let failed := failures rs
    finish tree root request
      (log ++ Glob.warnings excluded ++ scope.warnings request.paths ++ failed)
      (.ok (Report.files request.format request.pretty (successes rs)))
      (if failed.isEmpty then .ok () else .error (.files failed.length))

end Marginalia.Extract
