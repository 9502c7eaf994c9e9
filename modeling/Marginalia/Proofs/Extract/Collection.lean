import Marginalia.Extract.Collect
import Marginalia.Proofs.FileTree.Reach
import Marginalia.Proofs.Language.Registry
import Marginalia.Proofs.Path.Order
import Mathlib.Tactic.Tauto

/-! The files that a request collects: the named ones, and those that walks from named directories come
upon. -/

namespace Marginalia

lemma Glob.excludes_patterns_iff {texts : List Text} {path : Text} :
    Glob.excludes (Glob.patterns texts) path = true ↔
      ∃ text ∈ texts, ∃ pattern, Glob.parse text = .ok pattern ∧ Glob.isMatch pattern path = true := by
  have ho (text : Text) (pattern : Pattern) :
      (Glob.parse text).toOption = some pattern ↔ Glob.parse text = .ok pattern := by
    cases Glob.parse text <;> simp [Except.toOption]
  simp only [excludes, patterns, List.any_eq_true, List.mem_filterMap, ho]
  constructor
  · rintro ⟨pattern, ⟨text, ht, hp⟩, hm⟩
    exact ⟨text, ht, pattern, hp, hm⟩
  · rintro ⟨text, ht, pattern, hp, hm⟩
    exact ⟨pattern, ⟨text, ht, hp⟩, hm⟩

namespace Extract

def Skipped (path : Text) : Prop := ∃ name ∈ skippedNames, Path.fileName? path = some name

lemma isSkipped_iff {path : Text} : isSkipped path = true ↔ Skipped path := by
  have hself : ∀ name ∈ skippedNames, Path.fileName? name = some name := by decide
  simp only [isSkipped, List.contains_iff_mem, Skipped]
  cases h : Path.fileName? path with
  | some name => simp
  | none =>
    simp only [Option.getD_none, reduceCtorEq, and_false, exists_false, iff_false]
    intro hm
    simp [hself path hm] at h

def Kept (root : Text) (excluded : List Text) (path : Text) : Prop :=
  ¬∃ text ∈ excluded, ∃ pattern, Glob.parse text = .ok pattern ∧
    Glob.isMatch pattern (Path.relativeTo root path) = true

/-- A start that is a file stands for itself, and one that is a directory for the files in known languages
that a walk comes upon. -/
def Collects (tree : FileTree) (registry : Registry) (root : Text) (excluded : List Text)
    (start path : Text) : Prop :=
  tree.isFile start = true ∧ path = start ∨
    tree.isFile path = true ∧ (∃ extension ∈ registry.extensions, Path.extension? path = some extension) ∧
      tree.Reaches (fun p => ¬Skipped p ∧ Kept root excluded p) (Kept root excluded) start path

namespace Scope

open Marginalia.Path (join)

variable {tree : FileTree} {registry : Registry} {root start path : Text} {excluded paths : List Text}

lemma admits_iff {isDirectory : Bool} :
    (Scope.mk tree registry root (Glob.patterns excluded)).admits path isDirectory = true ↔
      ¬(isDirectory = true ∧ Skipped path) ∧ Kept root excluded path := by
  rw [← isSkipped_iff, Kept, ← Glob.excludes_patterns_iff]
  cases isDirectory <;> simp [admits]

lemma mem_collect_cases {s : Scope} (h : path ∈ s.collect start) :
    s.tree.isFile start = true ∧ path = start ∨
      s.tree.isFile start = false ∧ path ∈ s.tree.walk s.admits start ∧ s.isWanted path = true := by
  rw [collect] at h
  split at h
  · next hf => exact .inl ⟨hf, List.mem_singleton.mp h⟩
  · next hf =>
    obtain ⟨hwalk, hwanted⟩ := List.mem_filter.mp h
    exact .inr ⟨Bool.eq_false_iff.mpr hf, hwalk, hwanted⟩

lemma mem_collect_iff : path ∈ (Scope.mk tree registry root (Glob.patterns excluded)).collect start ↔
    Collects tree registry root excluded start path := by
  have hwalk : path ∈ tree.walk (Scope.mk tree registry root (Glob.patterns excluded)).admits start ↔
      tree.Reaches (fun p => ¬Skipped p ∧ Kept root excluded p) (Kept root excluded) start path := by
    simp only [FileTree.mem_walk_iff, admits_iff, true_and, Bool.false_eq_true, false_and, not_false_eq_true]
  rw [collect, Collects]
  split
  case isTrue hf =>
    have hn : ¬tree.Reaches (fun p => ¬Skipped p ∧ Kept root excluded p) (Kept root excluded) start path := by
      rintro ⟨place, chain, above, name, ho, -⟩
      exact ho.not_isFile hf
    simp_all
  case isFalse hf =>
    rw [List.mem_filter, hwalk, isWanted, Bool.and_eq_true, Registry.supports_iff]
    tauto

lemma exists_mem_files_iff {p : Text} :
    (∃ q ∈ (Scope.mk tree registry root (Glob.patterns excluded)).files paths, Path.same q p = true) ↔
      ∃ start ∈ if paths = [] then [join root root] else paths.map (join root),
        ∃ q, Path.same q p = true ∧ Collects tree registry root excluded start q := by
  have hstarts : (if paths = [] then [join root root] else paths.map (join root)) =
      ((Scope.mk tree registry root (Glob.patterns excluded)).inputs paths).map (join root) := by
    simp only [inputs, List.isEmpty_iff]
    split <;> rfl
  rw [Path.exists_same_iff, files, Path.mem_components_sorted, ← Path.exists_same_iff, hstarts]
  simp only [List.mem_flatMap, List.mem_map, exists_exists_and_eq_and, filesOf, ← mem_collect_iff]
  constructor
  · rintro ⟨q, ⟨path, hp, hq⟩, hs⟩
    exact ⟨path, hp, q, hs, hq⟩
  · rintro ⟨path, hp, q, hs, hq⟩
    exact ⟨q, ⟨path, hp, hq⟩, hs⟩

lemma components_files_congr {s : Scope} {paths' : List Text} (h : ∀ p, p ∈ paths' ↔ p ∈ paths) :
    (s.files paths').map Path.components = (s.files paths).map Path.components := by
  have hempty : paths'.isEmpty = paths.isEmpty := by
    rw [Bool.eq_iff_iff, List.isEmpty_iff, List.isEmpty_iff, List.eq_nil_iff_forall_not_mem,
      List.eq_nil_iff_forall_not_mem]
    simp only [h]
  have hin : ∀ p, p ∈ s.inputs paths' ↔ p ∈ s.inputs paths := by
    intro p
    rw [inputs, inputs, hempty]
    split
    · rfl
    · exact h p
  apply Path.components_sorted_congr
  intro cs
  simp only [List.mem_map, List.mem_flatMap, hin]

end Scope

end Extract

end Marginalia
