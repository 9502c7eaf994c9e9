import Marginalia.CommandLine.Reading

/-!
Command lines: arguments of the program, the name of the command, and the arguments and paths of
the command.
-/

namespace Marginalia.CommandLine

structure Request where
  paths : List Text := []
  ext : Text := Text.lit "js"
  format : Report.Format := .json
  pretty : Bool := false
  output : Option Text := none
  exclude : List Text := []
  options : Options := {}
  deriving DecidableEq, Repr

def Request.readsStdin (request : Request) : Bool := request.paths == [['-']]

structure Invocation where
  root : Option Text
  verbose : Bool
  request : Request
  deriving DecidableEq, Repr

def Request.ofGiven (g : Given) : Request where
  paths := g.paths
  ext := g.ext.getD (Text.lit "js")
  format := g.format.getD .json
  pretty := .pretty ∈ g.flags
  output := g.output
  exclude := g.exclude
  options := g.options

def Invocation.ofGiven (program command : Given) : Invocation where
  root := command.root <|> program.root
  verbose := .verbose ∈ program.flags || .verbose ∈ command.flags
  request := .ofGiven command

namespace Invocation

def commandName : Text := Text.lit "extract"

def helpName : Text := Text.lit "help"

def readCommand (words : List Text) : Except Refusal Given := do
  let start : Reading := { level := .command }
  let reading ← words.foldlM (fun (r : Reading) w => r.word Reading.path w) start
  reading.settle

def helpOn : List Text → Refusal
  | [] => .help
  | [w] => if w = commandName || w = helpName then .help else .unknownCommand
  | _ => .unknownCommand

def noPath (r : Reading) (w : Text) : Except Refusal Reading :=
  if r.onlyPaths && (w = commandName || w = helpName) then .error .unknownArgument
  else .error .unknownCommand

/-- The rest of the command line from a word ahead of the command. What is pending there is
checked after the arguments of the command. -/
def readFrom (r : Reading) : List Text → Except Refusal Invocation
  | [] => do
    if (← r.settle).isNothing then .error .nothingGiven else .error .missingCommand
  | w :: words =>
    if !r.onlyPaths && !r.isAwaiting && w = commandName then do
      let command ← readCommand words
      .ok (ofGiven (← r.settle) command)
    else if !r.onlyPaths && !r.isAwaiting && w = helpName then .error (helpOn words)
    else do readFrom (← r.word noPath w) words

def parse (words : List Text) : Except Refusal Invocation := readFrom { level := .program } words

end Invocation

end Marginalia.CommandLine
