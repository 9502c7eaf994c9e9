import Marginalia.Proofs.Extract.Collection
import Marginalia.Proofs.Extract.Output
import Marginalia.Proofs.Source.Traversal

/-! Runs over many files. A file that fails is left out, counted and logged, and changes nothing about what the
others give. -/

namespace Marginalia

namespace Extract

open Marginalia.Path (join)
open CommandLine (Request)

def commentsOf (options : Options) (extension : Option Text) (content : Bytes) :
    Except Failure (List Comment) :=
  match extension.bind Registry.standard.byExtension? with
  | none => .error (.language (.unsupported (extension.getD [])))
  | some language =>
    match Text.decode? content with
    | none => .error (.source .notText)
    | some source => (language.extract source options).mapError .language

section File

variable {tree : FileTree} {root path : Text} {options : Options} {content : Bytes}

lemma file_eq (h : tree.find path = .ok (.file content)) :
    file tree .standard root options path =
      (commentsOf options (Path.extension? path) content).map fun comments => ⟨label root path, comments⟩ := by
  have hread : tree.readText path = (Text.decode? content).elim (.error .notText) .ok := by
    rw [FileTree.readText, FileTree.readBytes, h]
    cases ht : Text.decode? content <;> simp [bind, Except.bind, ht]
  rw [file, hread, commentsOf, Registry.forPath, Registry.forPath?]
  cases (Path.extension? path).bind Registry.standard.byExtension? with
  | none => rfl
  | some language =>
    cases Text.decode? content with
    | none => rfl
    | some source =>
      simp only [Except.mapError, Option.elim_some, bind, Except.bind]
      cases language.extract source options <;> rfl

end File

lemma isFile_of_mem_files {scope : Scope} {paths : List Text} {path : Text} (h : path ∈ scope.files paths) :
    scope.tree.isFile path = true := by
  obtain ⟨start, -, h⟩ := List.mem_flatMap.mp (Path.mem_of_mem_sorted h)
  obtain ⟨hf, rfl⟩ | ⟨-, -, hwanted⟩ := Scope.mem_collect_cases h
  · exact hf
  · rw [Scope.isWanted, Bool.and_eq_true] at hwanted
    exact hwanted.1

lemma exists_content_of_isFile {tree : FileTree} {path : Text} (h : tree.isFile path = true) :
    ∃ content, tree.find path = .ok (.file content) := by
  rw [FileTree.isFile] at h
  split at h
  · next content hf => exact ⟨content, hf⟩
  · simp at h

section Log

variable {tree : FileTree} {root : Text} {entry : LogEntry}

end Log

def effectiveOptions (tree : FileTree) (root : Text) (request : Request) : Options :=
  request.options.or (Config.load tree root).1.options

def scopeOf (tree : FileTree) (root : Text) (request : Request) : Scope where
  tree := tree
  registry := .standard
  root := root
  patterns := Glob.patterns ((Config.load tree root).1.exclude ++ request.exclude)

def outcomes (tree : FileTree) (root : Text) (request : Request) : List (Text × Except Failure FileComments) :=
  results (scopeOf tree root request) (effectiveOptions tree root request) request.paths

lemma outcomes_eq_map (tree : FileTree) (root : Text) (request : Request) :
    outcomes tree root request = ((scopeOf tree root request).files request.paths).map fun path =>
      (path, file tree .standard root (effectiveOptions tree root request) path) := rfl

lemma run_eq_finish {tree : FileTree} {root : Text} {request : Request} (stdin : Bytes)
    (hs : request.readsStdin = false) :
    run tree root request stdin =
      finish tree root request
        ((Config.load tree root).2 ++ [.debug (Text.lit "resolved extraction options")] ++
          Glob.warnings ((Config.load tree root).1.exclude ++ request.exclude) ++
          (scopeOf tree root request).warnings request.paths ++ failures (outcomes tree root request))
        (.ok (Report.files request.format request.pretty (successes (outcomes tree root request))))
        (if failures (outcomes tree root request) = [] then .ok ()
          else .error (.files (failures (outcomes tree root request)).length)) := by
  rw [run]
  simp only [hs, Bool.false_eq_true, if_false, List.isEmpty_iff]
  rfl

lemma commentsOf_empty (options : Options) : commentsOf options (some (Text.lit "js")) [] = .ok [] := by
  have hlanguage : Registry.standard.byExtension? (Text.lit "js") = some (.ofDialect .javascript) := rfl
  have htext : Text.decode? [] = some [] := rfl
  have hcomments : Source.comments .javascript [] = [] := by
    rw [Source.comments_eq_map_filter, Source.Lexeme.scan, Source.Lexeme.scanFrom]
    rfl
  simp only [commentsOf, Option.bind_some, hlanguage, htext, Language.extract, Language.ofDialect, hcomments]
  rfl

end Extract

end Marginalia
