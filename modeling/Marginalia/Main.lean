import Marginalia.Program

/-!
The program as a process. It takes a picture of the files that a command line is about, runs on the
picture, and then prints and writes what came out.
-/

namespace Marginalia.Main

open CommandLine (Invocation Refusal)

structure Picture where
  tree : FileTree
  opened : List Place := []

abbrev Camera := StateT Picture IO

def pathOf (place : Place) : String := "/" ++ "/".intercalate (place.reverse.map String.ofList)

def placeOf (path : String) : Place := (path.toList.splitOn '/').reverse.filter fun n => !n.isEmpty

/-- What stands at a place. The content of a file is taken only on demand. A link that leads
nowhere is shown as a link to itself. -/
def look (place : Place) (withContent : Bool) : IO (Option Node) := do
  let path := (← IO.currentDir) / pathOf place
  try
    match (← path.symlinkMetadata).type with
    | .dir => return some .directory
    | .symlink =>
      try return some (.link (← IO.FS.realPath path).toString.toList)
      catch _ => return some (.link path.toString.toList)
    | _ =>
      if withContent then return some (.file (← IO.FS.readBinFile path).toList)
      else return some (.file [])
  catch _ => return none

def show? (place : Place) (withContent : Bool) : Camera (Option Node) := do
  if let some node := (← get).tree.node? place then return some node
  let node ← look place withContent
  if let some n := node then
    modify fun p => { p with tree := { p.tree with nodes := (place, n) :: p.tree.nodes } }
  return node

partial def showAlong (links : Nat) (place : Place) : List Text → Camera (Option Place)
  | [] => return some place
  | piece :: rest => do
    if Path.isFiller piece then showAlong links place rest
    else if piece = ['.', '.'] then showAlong links place.tail rest
    else
      match ← show? (piece :: place) true with
      | none => return none
      | some (.link target) =>
        if links = 0 then return none
        else showAlong (links - 1) [] (target.splitOn '/' ++ rest)
      | some _ => showAlong links (piece :: place) rest

partial def showBelow (place : Place) : Camera Unit := do
  if (← get).opened.contains place then return
  modify fun p => { p with opened := place :: p.opened }
  let directory := (← IO.currentDir) / pathOf place
  let entries ← try directory.readDir catch _ => pure #[]
  for entry in entries do
    let name := entry.fileName.toList
    match ← show? (name :: place) (Registry.standard.supports name) with
    | some .directory => unless Extract.isSkipped name do showBelow (name :: place)
    | some (.link target) =>
      if let some found ← showAlong FileTree.linkLimit [] (target.splitOn '/') then
        if (← get).tree.isDirectoryAt found && !Extract.isSkipped name then showBelow found
    | _ => pure ()

def showWay (path : Text) : Camera (Option Place) := do
  let current := (← get).tree.current
  showAlong FileTree.linkLimit (if Path.isAbsolute path then [] else current) (path.splitOn '/')

def showPath (path : Text) : Camera Unit := do
  if let some found ← showWay path then
    if (← get).tree.isDirectoryAt found then showBelow found

def showRequest (root : Text) (request : CommandLine.Request) : Camera Unit := do
  discard (showWay (← get).tree.currentPath)
  discard (showWay (Path.join root Config.fileName))
  unless request.readsStdin do
    for path in if request.paths.isEmpty then [root] else request.paths do
      showPath (Path.join root path)
  if let some output := request.output then
    discard (showWay (Path.join root output))

def usage : String :=
  "Extract normalized comments and tags from JavaScript\n\n" ++
  "Usage: jscomments [-r ROOT] [-v] extract [OPTIONS] [PATH]...\n\n" ++
  "Options of extract:\n" ++
  "  --ext EXT, --format json|text, --pretty, -o FILE, --trim POLICY, --exclude PATTERN,\n" ++
  "  --include-node, --no-include-node, --tags, --no-tags, --keep-tag-lines,\n" ++
  "  --remove-tag-lines\n"

def tell (refusal : Refusal) : IO Unit := do
  match refusal with
  | .help => IO.print usage
  | .version line => IO.print (String.ofList line)
  | _ => IO.eprint ("error: the command line was not understood\n\n" ++ usage)

def writeOutput (before after : FileTree) (path : Text) : IO Unit := do
  match before.readBytes path, after.readBytes path with
  | .ok old, .ok new => if old ≠ new then IO.FS.writeBinFile (String.ofList path) new.toByteArray
  | _, .ok new => IO.FS.writeBinFile (String.ofList path) new.toByteArray
  | _, _ => pure ()

end Marginalia.Main

open Marginalia Marginalia.Main in
def main (args : List String) : IO UInt32 := do
  let words := args.map String.toList
  match CommandLine.Invocation.parse words with
  | .error refusal =>
    tell refusal
    return refusal.status.toUInt32
  | .ok invocation =>
    let current := placeOf (← IO.currentDir).toString
    let start : FileTree := { current }
    let root := invocation.root.getD start.currentPath
    let ((), picture) ← (showRequest root invocation.request).run { tree := start }
    let stdin ←
      if invocation.request.readsStdin then ByteArray.toList <$> (← IO.getStdin).readBinToEnd
      else pure []
    let setting := (← IO.getEnv "RUST_LOG").map String.toList
    let outcome := Program.run picture.tree words setting stdin
    for entry in outcome.log do
      IO.eprintln (String.ofList entry.line)
    IO.print (String.ofList outcome.stdout)
    if let some output := invocation.request.output then
      writeOutput picture.tree outcome.tree (Path.join root output)
    if let some failure := outcome.failure then
      IO.eprintln ("Error: " ++ String.ofList failure)
    return outcome.status.toUInt32
