import Marginalia.Proofs.Extract.Isolation
import Marginalia.Proofs.Report.LineCount

/-! A source gives the same comments whether it is read from the standard input or from a file. -/

namespace Marginalia

namespace Report

lemma terminated_commentsJson (comments : List Comment) :
    Text.terminated (commentsJson false comments) = commentsJson false comments ++ ['\n'] := by
  have h : commentsJson false comments = '[' :: Json.compactItems (comments.map Comment.toJson) ++ [']'] := by
    simp [commentsJson, Json.print, Json.compact]
  rw [h, Text.terminated_concat (by decide), List.append_assoc]
  rfl

lemma terminated_filesJson_singleton (name : Text) (comments : List Comment) :
    Text.terminated (filesJson false [⟨name, comments⟩]) =
      Text.lit "[\x7b\"file\":" ++ Json.quote name ++ Text.lit ",\"comments\":" ++
        commentsJson false comments ++ Text.lit "\x7d]\n" := by
  have hfile : Json.quote (Text.lit "file") = Text.lit "\"file\"" := rfl
  have hcomments : Json.quote (Text.lit "comments") = Text.lit "\"comments\"" := rfl
  have h : filesJson false [⟨name, comments⟩] =
      Text.lit "[\x7b\"file\":" ++ Json.quote name ++ Text.lit ",\"comments\":" ++
        commentsJson false comments ++ ['\x7d'] ++ [']'] := by
    simp only [filesJson, commentsJson, Json.print, FileComments.toJson, jsonFields, List.map_cons, List.map_nil,
      Bool.false_eq_true, if_false, Json.compact, Json.compactItems, Json.compactFields, hfile, hcomments]
    simp [Text.lit]
  rw [h, Text.terminated_concat (by decide), List.append_assoc]
  rfl

def textAfterName (comments : List Comment) : Text :=
  Text.lit " (" ++ Text.numeral comments.length ++ Text.lit " comments)\n" ++
    (comments.flatMap commentLines).flatMap fun line => line ++ ['\n']

lemma terminated_text_singleton (name : Text) (comments : List Comment) :
    Text.terminated (text [⟨name, comments⟩]) = name ++ textAfterName comments := by
  have h : text [⟨name, comments⟩] = name ++ textAfterName comments := by
    simp only [text_singleton_eq, textAfterName, List.append_assoc]
  rw [Text.terminated, if_pos (getLast?_text (by simp)), h]

end Report

namespace Extract

open Marginalia.Path (join)
open CommandLine (Request)

def asInput (request : Request) (ext : Text) (output : Option Text) : Request :=
  { request with paths := [['-']], ext, output }

def asFile (request : Request) (path : Text) (output : Option Text) : Request :=
  { request with paths := [path], output }

lemma readsStdin_asFile {request : Request} {path extension : Text} {output : Option Text}
    (h : Path.extension? path = some extension) : (asFile request path output).readsStdin = false := by
  refine beq_eq_false_iff_ne.mpr fun hp => ?_
  rw [(List.cons.inj hp).1] at h
  cases h

section Routes

variable {tree : FileTree} {root path extension source : Text} {content : Bytes} {options : Options}

lemma exists_language (he : extension ∈ Registry.standard.extensions)
    (hp : Path.extension? path = some extension) :
    ∃ language, Registry.standard.byExtension? extension = some language := by
  have hs : Registry.standard.supports path = true := Registry.supports_iff.mpr ⟨extension, he, hp⟩
  rw [Registry.supports, Registry.forPath?, hp] at hs
  exact Option.isSome_iff_exists.mp hs

-- An extension without a language is told in the error with its dots, so there has to be one.
lemma unnamed_dots {language : Language} (hl : Registry.standard.byExtension? extension = some language)
    (dots : Nat) (source : Text) :
    unnamed .standard (List.replicate dots '.' ++ extension) source options =
      unnamed .standard extension source options := by
  simp only [unnamed, Registry.byExtension?_dots, hl]

lemma exists_unnamed_eq_ok {language : Language} (hl : Registry.standard.byExtension? extension = some language)
    (hd : Text.decode? content = some source) :
    ∃ comments, unnamed .standard extension source options = .ok comments ∧
      commentsOf options (some extension) content = .ok comments := by
  obtain ⟨d, rfl⟩ := Registry.exists_dialect_of_byExtension? hl
  simp only [unnamed, commentsOf, Option.bind_some, hl, hd]
  exact ⟨_, rfl, rfl⟩

lemma files_singleton {request : Request} (hf : tree.find (join root path) = .ok (.file content)) :
    (scopeOf tree root request).files [path] = [join root path] := by
  have hfile : tree.isFile (join root path) = true := by
    rw [FileTree.isFile, hf]
  have hof : (scopeOf tree root request).filesOf path = [join root path] := if_pos hfile
  rw [Scope.files, Scope.inputs, List.isEmpty_cons, if_neg Bool.false_ne_true, List.flatMap_singleton, hof,
    Path.sorted_singleton]

lemma outcomes_asFile {request : Request} {output : Option Text} {comments : List Comment}
    (hf : tree.find (join root path) = .ok (.file content)) (hp : Path.extension? path = some extension)
    (hc : commentsOf (effectiveOptions tree root request) (some extension) content = .ok comments) :
    outcomes tree root (asFile request path output) =
      [(join root path, .ok ⟨label root (join root path), comments⟩)] := by
  have hfile : file tree .standard root (effectiveOptions tree root (asFile request path output)) (join root path) =
      .ok ⟨label root (join root path), comments⟩ := by
    rw [file_eq hf, Path.extension?_join hp]
    exact congrArg (Except.map _) hc
  have hfiles : (scopeOf tree root (asFile request path output)).files (asFile request path output).paths =
      [join root path] := files_singleton hf
  rw [outcomes_eq_map, hfiles, List.map_singleton, hfile]

end Routes

lemma run_input_eq_finish {tree : FileTree} {root : Text} {request : Request} (stdin : Bytes)
    (hs : request.readsStdin = true) :
    run tree root request stdin =
      finish tree root request ((Config.load tree root).2 ++ [.debug (Text.lit "resolved extraction options")])
        (inputReport .standard request (effectiveOptions tree root request) stdin) (.ok ()) := by
  rw [run]
  simp only [hs, if_true]
  rfl

lemma run_asInput_dots {tree : FileTree} {root extension : Text} {language : Language}
    (hl : Registry.standard.byExtension? extension = some language) (request : Request) (output : Option Text)
    (dots : Nat) (stdin : Bytes) :
    run tree root (asInput request (List.replicate dots '.' ++ extension) output) stdin =
      run tree root (asInput request extension output) stdin := by
  have hreport : inputReport .standard (asInput request (List.replicate dots '.' ++ extension) output)
      (effectiveOptions tree root request) stdin =
        inputReport .standard (asInput request extension output) (effectiveOptions tree root request) stdin := by
    rw [inputReport, inputReport]
    cases Text.decode? stdin with
    | none => rfl
    | some source =>
      simp only [asInput, unnamed_dots hl]
  rw [run_input_eq_finish stdin rfl, run_input_eq_finish stdin rfl]
  exact congrArg (finish tree root (asInput request extension output) _ · _) hreport

/-- What two runs have done that were given one source, as the input and as a file with the given name. -/
structure Agree (tree : FileTree) (root : Text) (request : Request) (output : Option Text) (name : Text)
    (comments : List Comment) (input named : Run) : Prop where
  input_ok : input.result = .ok ()
  named_ok : named.result = .ok ()
  json : request.format = .json → request.pretty = false →
    HandsOver tree root output (Report.commentsJson false comments ++ ['\n']) input ∧
      HandsOver tree root output (Text.lit "[\x7b\"file\":" ++ Json.quote name ++ Text.lit ",\"comments\":" ++
        Report.commentsJson false comments ++ Text.lit "\x7d]\n") named
  text : request.format = .text →
    HandsOver tree root output ('-' :: Report.textAfterName comments) input ∧
      HandsOver tree root output (name ++ Report.textAfterName comments) named

lemma run_asInput {tree : FileTree} {root extension source : Text} {request : Request} {output : Option Text}
    {content : Bytes} {comments : List Comment} (hd : Text.decode? content = some source)
    (hu : unnamed .standard extension source (effectiveOptions tree root request) = .ok comments)
    (hw : Writable tree root output) :
    (run tree root (asInput request extension output) content).result = .ok () ∧
      HandsOver tree root output (Text.terminated (Report.unnamed request.format request.pretty comments))
        (run tree root (asInput request extension output) content) := by
  have hreport : inputReport .standard (asInput request extension output) (effectiveOptions tree root request)
      content = .ok (Report.unnamed request.format request.pretty comments) := by
    simp only [inputReport, hd, asInput, hu]
    rfl
  have hrun := @run_input_eq_finish tree root (asInput request extension output) content rfl
  rw [show effectiveOptions tree root (asInput request extension output) = effectiveOptions tree root request
    from rfl, hreport] at hrun
  rw [hrun]
  exact ⟨@finish_result tree root (asInput request extension output) _ _ _ hw,
    @finish_handsOver tree root (asInput request extension output) _ _ _ hw⟩

lemma run_asFile {tree : FileTree} {root path extension : Text} {request : Request} {output : Option Text}
    {content : Bytes} {comments : List Comment} (stdin : Bytes) (hp : Path.extension? path = some extension)
    (hf : tree.find (join root path) = .ok (.file content))
    (hc : commentsOf (effectiveOptions tree root request) (some extension) content = .ok comments)
    (hw : Writable tree root output) :
    (run tree root (asFile request path output) stdin).result = .ok () ∧
      HandsOver tree root output
        (Text.terminated (Report.files request.format request.pretty [⟨label root (join root path), comments⟩]))
        (run tree root (asFile request path output) stdin) := by
  have hrun := @run_eq_finish tree root (asFile request path output) stdin (readsStdin_asFile hp)
  rw [outcomes_asFile hf hp hc] at hrun
  rw [hrun]
  exact ⟨@finish_result tree root (asFile request path output) _ _ _ hw,
    @finish_handsOver tree root (asFile request path output) _ _ _ hw⟩

theorem run_input_agrees_with_file (tree : FileTree) (root path extension source : Text) (request : Request)
    (output : Option Text) (content stdin : Bytes) (hd : Text.decode? content = some source)
    (he : extension ∈ Registry.standard.extensions) (hp : Path.extension? path = some extension)
    (hf : tree.find (join root path) = .ok (.file content)) (hw : Writable tree root output) :
    (∃ comments, unnamed .standard extension source (effectiveOptions tree root request) = .ok comments ∧
      Agree tree root request output (label root (join root path)) comments
        (run tree root (asInput request extension output) content)
        (run tree root (asFile request path output) stdin)) ∧
    ∀ (dots : Nat) (given : Bytes),
      run tree root (asInput request (List.replicate dots '.' ++ extension) output) given =
        run tree root (asInput request extension output) given := by
  obtain ⟨language, hl⟩ := exists_language he hp
  refine ⟨?_, run_asInput_dots hl request output⟩
  obtain ⟨comments, hu, hc⟩ := exists_unnamed_eq_ok hl hd
  obtain ⟨hinput, hinputText⟩ := run_asInput hd hu hw
  obtain ⟨hfile, hfileText⟩ := run_asFile stdin hp hf hc hw
  refine ⟨comments, hu, hinput, hfile, ?_, ?_⟩
  · intro hformat hpretty
    rw [hformat, hpretty] at hinputText hfileText
    rw [← Report.terminated_commentsJson, ← Report.terminated_filesJson_singleton]
    exact ⟨hinputText, hfileText⟩
  · intro hformat
    rw [hformat] at hinputText hfileText
    rw [← List.singleton_append, ← Report.terminated_text_singleton, ← Report.terminated_text_singleton]
    exact ⟨hinputText, hfileText⟩

def lineTree : FileTree where
  nodes := [([Text.lit "a.js"], .file (Text.lit "//x").bytes)]

lemma unnamed_line :
    unnamed .standard (Text.lit "js") (Text.lit "//x") (effectiveOptions lineTree (Text.lit "/") {}) =
      .ok [⟨1, 1, [['x']], false, [], none⟩] := by
  have hlanguage : Registry.standard.byExtension? (Text.lit "js") = some (.ofDialect .javascript) := rfl
  have hsource : Text.lit "//x" = ['/', '/', 'x'] := rfl
  have hrest : ['/', 'x'].drop (Source.Context.initial.step .javascript '/' ['/', 'x']).extra = [] := rfl
  have hcomments : Source.comments .javascript (Text.lit "//x") =
      [⟨['x'], 1, 1, some ⟨.line, (0, 3), ⟨1, 0⟩, ⟨1, 3⟩⟩⟩] := by
    rw [Source.comments_eq_map_filter, Source.Lexeme.scan, hsource, Source.Lexeme.scanFrom, hrest,
      Source.Lexeme.scanFrom]
    rfl
  simp only [unnamed, hlanguage, Language.extract, Language.ofDialect, hcomments]
  rfl

theorem run_input_agrees_with_file_line :
    Text.decode? (Text.lit "//x").bytes = some (Text.lit "//x") ∧ Writable lineTree (Text.lit "/") none ∧
      (run lineTree (Text.lit "/") (asInput {} (Text.lit "..js") none) (Text.lit "//x").bytes).stdout =
        Text.lit "[\x7b\"start\":1,\"end\":1,\"lines\":[\"x\"],\"jsDoc\":false,\"tags\":[]\x7d]\n" ∧
      (run lineTree (Text.lit "/") (asFile {} (Text.lit "a.js") none) []).stdout =
        Text.lit "[\x7b\"file\":\"a.js\",\"comments\":" ++
          Text.lit "[\x7b\"start\":1,\"end\":1,\"lines\":[\"x\"],\"jsDoc\":false,\"tags\":[]\x7d]\x7d]\n" := by
  have hd : Text.decode? (Text.lit "//x").bytes = some (Text.lit "//x") := Text.decode?_bytes _
  have hw : Writable lineTree (Text.lit "/") none := by simp [Writable]
  obtain ⟨⟨comments, hu, hagree⟩, hdots⟩ := run_input_agrees_with_file lineTree (Text.lit "/") (Text.lit "a.js")
    (Text.lit "js") (Text.lit "//x") {} none (Text.lit "//x").bytes [] hd (by decide) rfl rfl hw
  rw [unnamed_line] at hu
  obtain rfl := Except.ok.inj hu
  have hjson : Report.commentsJson false [⟨1, 1, [['x']], false, [], none⟩] =
      Text.lit "[\x7b\"start\":1,\"end\":1,\"lines\":[\"x\"],\"jsDoc\":false,\"tags\":[]\x7d]" := by decide
  have hname : Json.quote (label (Text.lit "/") (join (Text.lit "/") (Text.lit "a.js"))) = Text.lit "\"a.js\"" := by
    decide
  obtain ⟨⟨hinput, -⟩, hfile, -⟩ := hagree.json rfl rfl
  rw [hjson] at hinput hfile
  rw [hname] at hfile
  refine ⟨hd, hw, ?_, ?_⟩
  · rw [show Text.lit "..js" = List.replicate 2 '.' ++ Text.lit "js" from rfl, hdots, hinput]
    simp [Text.lit]
  · rw [hfile]
    simp [Text.lit]

end Extract

end Marginalia
