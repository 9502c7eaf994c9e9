import Marginalia.FileTree.Edit
import Marginalia.Language.Registry

/-!
Extraction from one source, and how it fails.
-/

namespace Marginalia.Extract

inductive Failure where
  | language (e : LanguageError)
  | input (e : FileError)
  | source (e : FileError)
  | output (e : FileError)
  | files (count : Nat)
  deriving DecidableEq, Repr

def Failure.message : Failure → Text
  | language e => e.message
  | input e => Text.lit "Failed to read from stdin: " ++ e.message
  | source e => Text.lit "Failed to read source file: " ++ e.message
  | output e => Text.lit "Failed to write output file: " ++ e.message
  | files count => Text.numeral count ++ Text.lit " files failed to process"

def label (root path : Text) : Text := Text.replaceChar '\\' '/' (Path.relativeTo root path)

def file (tree : FileTree) (registry : Registry) (root : Text) (options : Options) (path : Text) :
    Except Failure FileComments := do
  let language ← (registry.forPath path).mapError .language
  let source ← (tree.readText path).mapError .source
  let comments ← (language.extract source options).mapError .language
  .ok ⟨label root path, comments⟩

def unnamed (registry : Registry) (extension source : Text) (options : Options) :
    Except Failure (List Comment) := do
  match registry.byExtension? extension with
  | none => .error (.language (.unsupported extension))
  | some language => (language.extract source options).mapError .language

end Marginalia.Extract
