import Marginalia.Comment.Encoding
import Marginalia.FileTree.Edit
import Marginalia.Log
import Marginalia.Toml.Parser

/-!
The configuration of a project: patterns for what its walks leave out, and a layer of options. A
file that cannot be read or is wrong in any way is reported and counts as absent.
-/

namespace Marginalia

structure Config where
  exclude : List Text := []
  options : Options := {}
  deriving DecidableEq, Repr

namespace Config

def fileName : Text := Text.lit "jscomments.toml"

/-- Options given as an array may be followed by anything. -/
def optionsOfToml? (v : Toml.Value) : Option Options :=
  match v.toJson with
  | .array items => Options.ofJson? (.array (items.take Options.fieldNames.length))
  | v => Options.ofJson? v

def ofToml? : Toml.Value → Option Config
  | .table entries => do
    let exclude ← match entries.lookup (Text.lit "exclude") with
      | some v => v.toJson.list? Json.text?
      | none => some []
    let options ← match entries.lookup (Text.lit "options") with
      | some v => optionsOfToml? v
      | none => some {}
    some { exclude, options }
  | _ => none

def ofText? (text : Text) : Option Config := (Toml.read? text).bind ofToml?

def load (tree : FileTree) (directory : Text) : Config × List LogEntry :=
  let path := Path.join directory fileName
  if tree.exists? path then
    match tree.readText path with
    | .error e => ({}, [.warning (Text.lit "Failed to read config: " ++ e.message)])
    | .ok text =>
      match ofText? text with
      | some config => (config, [])
      | none => ({}, [.warning (Text.lit "Failed to parse config")])
  else ({}, [])

end Config

end Marginalia
