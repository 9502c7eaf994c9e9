import Marginalia.Proofs.Extract.Isolation
import Marginalia.Proofs.Path.Relative
import Mathlib.Data.List.Forall2

/-! The labels under which a run reports files. Seen from the root no two of the files look the same; the labels,
which show backslashes as slashes, tell them apart unless a slash stands in one where a backslash stands in the
other. -/

namespace Marginalia

open Marginalia.Path (join SeenFrom relativeTo)

namespace FileTree

variable {tree : FileTree} {enters keeps : Text → Prop} {chain : List Place} {base start path : Text}

lemma Opens.seenFrom (hs : SeenFrom base start) (h : Opens tree enters start chain path) : SeenFrom base path := by
  induction h with
  | start => exact hs
  | next _ _ _ ih => exact ih.join _

lemma Reaches.seenFrom (hs : SeenFrom base start) (h : tree.Reaches enters keeps start path) :
    SeenFrom base path := by
  obtain ⟨place, chain, above, name, ho, -, rfl, -⟩ := h
  exact (ho.seenFrom hs).join name

end FileTree

namespace Extract

open CommandLine (Request)

lemma seenFrom_of_mem_files {scope : Scope} {paths : List Text} {path : Text} (h : path ∈ scope.files paths) :
    SeenFrom scope.root path := by
  obtain ⟨start, -, h⟩ := List.mem_flatMap.mp (Path.mem_of_mem_sorted h)
  have hstart : SeenFrom scope.root (join scope.root start) := SeenFrom.join (.inr List.prefix_rfl) start
  obtain ⟨-, rfl⟩ | ⟨-, hwalk, -⟩ := Scope.mem_collect_cases h
  · exact hstart
  · exact (FileTree.mem_walk_iff.mp hwalk).seenFrom hstart

lemma files_relativeTo_distinct (scope : Scope) (paths : List Text) :
    (scope.files paths).Pairwise fun p q => relativeTo scope.root p ≠ relativeTo scope.root q := by
  apply List.Pairwise.imp_of_mem _ (Path.sorted_pairwise _)
  intro p q hp hq hpq h
  apply hpq.2
  exact Path.same_iff.mpr
    (Path.components_eq_of_relativeTo_eq (seenFrom_of_mem_files hp) (seenFrom_of_mem_files hq) h)

/-- The texts agree, but that slashes and backslashes may stand for each other. -/
def AgreeButSlashes (s t : Text) : Prop :=
  List.Forall₂ (fun a b => a = b ∨ a ∈ ['/', '\\'] ∧ b ∈ ['/', '\\']) s t

lemma label_eq_iff {root p q : Text} :
    label root p = label root q ↔ AgreeButSlashes (relativeTo root p) (relativeTo root q) := by
  have hchar (a b : Char) : (if a = '\\' then '/' else a) = (if b = '\\' then '/' else b) ↔
      a = b ∨ a ∈ ['/', '\\'] ∧ b ∈ ['/', '\\'] := by
    by_cases ha : a = '\\' <;> by_cases hb : b = '\\' <;> grind
  rw [label, label, Text.replaceChar, Text.replaceChar, ← List.forall₂_eq_eq_eq, List.forall₂_map_left_iff,
    List.forall₂_map_right_iff, AgreeButSlashes]
  simp only [hchar]

lemma label_eq_relativeTo {root path : Text} (h : '\\' ∉ relativeTo root path) :
    label root path = relativeTo root path := by
  rw [label, Text.replaceChar]
  conv_rhs => rw [← List.map_id (relativeTo root path)]
  apply List.map_congr_left
  intro c hc
  have hne : c ≠ '\\' := by
    rintro rfl
    exact h hc
  exact if_neg hne

def recorded (tree : FileTree) (root : Text) (request : Request) : List (Text × FileComments) :=
  (outcomes tree root request).filterMap fun outcome => outcome.2.toOption.map (outcome.1, ·)

section Recorded

variable {tree : FileTree} {root : Text} {request : Request}

lemma map_snd_recorded :
    (recorded tree root request).map Prod.snd =
      successes (outcomes tree root request) := by
  rw [recorded, successes, List.map_filterMap]
  congr 1
  funext outcome
  rw [Option.map_map]
  exact Option.map_id'

lemma mem_recorded {r : Text × FileComments} (h : r ∈ recorded tree root request) :
    r.1 ∈ (scopeOf tree root request).files request.paths ∧
      file tree .standard root (effectiveOptions tree root request) r.1 = .ok r.2 := by
  obtain ⟨outcome, hm, hr⟩ := List.mem_filterMap.mp h
  rw [outcomes_eq_map] at hm
  obtain ⟨path, hp, rfl⟩ := List.mem_map.mp hm
  obtain ⟨record, hrecord, rfl⟩ := Option.map_eq_some_iff.mp hr
  refine ⟨hp, ?_⟩
  cases hf : file tree .standard root (effectiveOptions tree root request) path with
  | error e => simp [hf, Except.toOption] at hrecord
  | ok found => simpa [hf, Except.toOption] using hrecord

lemma file_of_mem_recorded {r : Text × FileComments} (h : r ∈ recorded tree root request) :
    r.2.file = label root r.1 := by
  obtain ⟨hm, hf⟩ := mem_recorded h
  obtain ⟨content, hc⟩ : ∃ content, tree.find r.1 = .ok (.file content) :=
    exists_content_of_isFile (isFile_of_mem_files hm)
  rw [file_eq hc] at hf
  cases hcomments : commentsOf (effectiveOptions tree root request) (Path.extension? r.1) content with
  | error e => simp [hcomments, Except.map] at hf
  | ok comments =>
    rw [hcomments] at hf
    rw [← Except.ok.inj hf]

lemma recorded_relativeTo_distinct :
    (recorded tree root request).Pairwise fun r s => relativeTo root r.1 ≠ relativeTo root s.1 := by
  rw [recorded, outcomes_eq_map, List.filterMap_map, List.pairwise_filterMap]
  apply (files_relativeTo_distinct (scopeOf tree root request) request.paths).imp
  intro p q h r hr s hs
  obtain ⟨_, -, rfl⟩ := Option.map_eq_some_iff.mp hr
  obtain ⟨_, -, rfl⟩ := Option.map_eq_some_iff.mp hs
  exact h

end Recorded

structure Labelled (tree : FileTree) (root : Text) (request : Request) (output : Option Text) (done : Run) :
    Prop where
  handsOver : Writable tree root output → HandsOver tree root output (Text.terminated
    (Report.files request.format request.pretty ((recorded tree root request).map Prod.snd))) done
  collected : ∀ r ∈ recorded tree root request, r.1 ∈ (scopeOf tree root request).files request.paths ∧
    file tree .standard root (effectiveOptions tree root request) r.1 = .ok r.2
  apart : (recorded tree root request).Pairwise fun r s => relativeTo root r.1 ≠ relativeTo root s.1
  shared : ∀ r ∈ recorded tree root request, ∀ s ∈ recorded tree root request,
    r.2.file = s.2.file ↔ AgreeButSlashes (relativeTo root r.1) (relativeTo root s.1)
  distinct : (∀ r ∈ recorded tree root request, '\\' ∉ relativeTo root r.1) →
    ((recorded tree root request).map fun r => r.2.file).Nodup

lemma run_handsOver {tree : FileTree} {root : Text} {request : Request} {output : Option Text} (stdin : Bytes)
    (hs : request.readsStdin = false) (hw : Writable tree root output) :
    HandsOver tree root output (Text.terminated
      (Report.files request.format request.pretty ((recorded tree root request).map Prod.snd)))
      (run tree root { request with output } stdin) := by
  have hrun := @run_eq_finish tree root { request with output } stdin hs
  rw [hrun, map_snd_recorded]
  exact @finish_handsOver tree root { request with output } _ _ _ hw

theorem run_labelled (tree : FileTree) (root : Text) (request : Request) (output : Option Text) (stdin : Bytes)
    (hs : request.readsStdin = false) :
    Labelled tree root request output (run tree root { request with output } stdin) where
  handsOver := run_handsOver stdin hs
  collected r := mem_recorded
  apart := recorded_relativeTo_distinct
  shared r hr s hs := by rw [file_of_mem_recorded hr, file_of_mem_recorded hs, label_eq_iff]
  distinct h := by
    rw [List.Nodup, List.pairwise_map]
    apply List.Pairwise.imp_of_mem _ recorded_relativeTo_distinct
    intro r s hr hs hne
    rw [file_of_mem_recorded hr, file_of_mem_recorded hs, label_eq_relativeTo (h r hr), label_eq_relativeTo (h s hs)]
    exact hne

lemma recorded_empty {tree : FileTree} {root : Text} {request : Request} {paths : List Text}
    (hfiles : (scopeOf tree root request).files request.paths = paths)
    (hempty : ∀ p ∈ paths, tree.find p = .ok (.file []) ∧ Path.extension? p = some (Text.lit "js")) :
    recorded tree root request = paths.map fun p => (p, ⟨label root p, []⟩) := by
  rw [recorded, outcomes_eq_map, hfiles, List.filterMap_map, ← List.filterMap_eq_map]
  apply List.filterMap_congr
  intro p hp
  obtain ⟨hf, he⟩ := hempty p hp
  rw [Function.comp_apply, file_eq hf, he, commentsOf_empty]
  rfl

def slashTree : FileTree where
  nodes := [([Text.lit "a"], .directory), ([Text.lit "b.js", Text.lit "a"], .file []),
    ([Text.lit "a\\b.js"], .file []), ([Text.lit "c.js"], .file [])]

def slashRequest (name : Text) : Request where
  paths := [Text.lit "a/b.js", name]
  format := .text

lemma recorded_slashes {name : Text} (h : name = Text.lit "a\\b.js" ∨ name = Text.lit "c.js") :
    recorded slashTree (Text.lit "/") (slashRequest name) =
      [(Text.lit "/a/b.js", ⟨Text.lit "a/b.js", []⟩), ('/' :: name, ⟨Text.replaceChar '\\' '/' name, []⟩)] := by
  have hfiles : (scopeOf slashTree (Text.lit "/") (slashRequest name)).files (slashRequest name).paths =
      [Text.lit "/a/b.js", '/' :: name] := by
    have hinputs : ((scopeOf slashTree (Text.lit "/") (slashRequest name)).inputs (slashRequest name).paths).flatMap
        (scopeOf slashTree (Text.lit "/") (slashRequest name)).filesOf = [Text.lit "/a/b.js", '/' :: name] := by
      rcases h with rfl | rfl <;> rfl
    have hsorted : [Text.lit "/a/b.js", '/' :: name].Pairwise fun p q => Path.le p q = true := by
      rcases h with rfl | rfl <;> decide
    rw [Scope.files, hinputs, Path.sorted, List.mergeSort_of_pairwise hsorted]
    rcases h with rfl | rfl <;> rfl
  rw [recorded_empty hfiles]
  · rcases h with rfl | rfl <;> rfl
  · rcases h with rfl | rfl <;> decide

theorem run_labelled_names :
    (slashRequest (Text.lit "c.js")).readsStdin = false ∧
      ((recorded slashTree (Text.lit "/") (slashRequest (Text.lit "c.js"))).map fun r => r.2.file).Nodup ∧
      (run slashTree (Text.lit "/") (slashRequest (Text.lit "c.js")) []).stdout =
        Text.lit "a/b.js (0 comments)\nc.js (0 comments)\n" := by
  have h := run_labelled slashTree (Text.lit "/") (slashRequest (Text.lit "c.js")) none [] rfl
  refine ⟨rfl, h.distinct ?_, ?_⟩
  · rw [recorded_slashes (.inr rfl)]
    decide
  · have hout := (h.handsOver (by simp [Writable])).1
    rw [recorded_slashes (.inr rfl)] at hout
    exact hout

theorem labels_shared :
    (run slashTree (Text.lit "/") (slashRequest (Text.lit "a\\b.js")) []).stdout =
        Text.lit "a/b.js (0 comments)\na/b.js (0 comments)\n" ∧
      ¬((recorded slashTree (Text.lit "/") (slashRequest (Text.lit "a\\b.js"))).map fun r => r.2.file).Nodup := by
  have hout := (@run_handsOver slashTree (Text.lit "/") (slashRequest (Text.lit "a\\b.js")) none [] rfl
    (by simp [Writable])).1
  rw [recorded_slashes (.inl rfl)] at hout ⊢
  exact ⟨hout, by decide⟩

end Extract

end Marginalia
