import Marginalia.Comment.Tags
import Marginalia.Proofs.Comment.Edges
import Marginalia.Proofs.Text.Trim

/-! Tag lines and the tags they state. A tidy tag is one that a line can state; written as a line it
is read back. -/

namespace Marginalia.Tag

open Ends

structure Tidy (tag : Tag) : Prop where
  name_unspaced : ' ' ∉ tag.name
  name_trimmed : Text.trim tag.name = tag.name
  value_solid : ∀ v, tag.value = .present v → v ≠ [] ∧ Text.trim v = v

variable {tag : Tag} {line : Text}

lemma ofLine?_isSome_iff : (ofLine? line).isSome ↔ line.head? = some '@' := by
  unfold ofLine?
  split
  · simp
  · next h =>
    cases line with
    | nil => simp
    | cons c rest =>
      have hc : c ≠ '@' := by
        rintro rfl
        exact h rest rfl
      simp [hc]

lemma ofLine?_eq_none_iff : ofLine? line = none ↔ line.head? ≠ some '@' := by
  rw [← Option.not_isSome_iff_eq_none, ofLine?_isSome_iff]

lemma ofLine?_of_isBlank (h : Text.isBlank line = true) : ofLine? line = none := by
  rw [ofLine?_eq_none_iff]
  intro hh
  obtain ⟨rest, rfl⟩ := List.head?_eq_some_iff.mp hh
  simp [Text.isBlank_cons_at] at h

lemma ofLine?_tidy (h : ofLine? line = some tag) : tag.Tidy := by
  unfold ofLine? at h
  split at h
  · cases h
    refine ⟨fun hs => ?_, Text.trim_trim, fun v hv => ?_⟩
    · simpa using List.mem_takeWhile_imp (Text.mem_of_mem_trim hs)
    · split at hv
      · simp at hv
      · next hne =>
        cases hv
        exact ⟨by simpa using hne, Text.trim_trim⟩
  · simp at h

lemma mem_of_ofLine? {c : Char} (h : ofLine? line = some tag) :
    (c ∈ tag.name → c ∈ line) ∧ ∀ v, tag.value = .present v → c ∈ v → c ∈ line := by
  unfold ofLine? at h
  split at h
  · next rest =>
    cases h
    refine ⟨fun hc => ?_, fun v hv hc => ?_⟩
    · exact List.mem_cons_of_mem _ ((List.takeWhile_prefix _).subset (Text.mem_of_mem_trim hc))
    · split at hv
      · simp at hv
      · cases hv
        exact List.mem_cons_of_mem _ ((List.dropWhile_suffix _).subset (Text.mem_of_mem_trim hc))
  · simp at h

lemma ne_space_of_mem {name : Text} (hn : ' ' ∉ name) : ∀ c ∈ name, decide (c ≠ ' ') = true := by
  intro c hc
  simpa using fun h : c = ' ' => hn (h ▸ hc)

lemma ofLine?_flag {name : Text} (hn : ' ' ∉ name) (ht : Text.trim name = name) :
    ofLine? ('@' :: name) = some ⟨name, .flag⟩ := by
  have hall := ne_space_of_mem hn
  simp only [ofLine?, List.takeWhile_eq_self_iff.mpr hall, List.dropWhile_eq_nil_iff.mpr hall, ht]
  rfl

lemma ofLine?_present {name v : Text} (hn : ' ' ∉ name) (ht : Text.trim name = name) (hv : v ≠ [])
    (hvt : Text.trim v = v) : ofLine? ('@' :: (name ++ ' ' :: v)) = some ⟨name, .present v⟩ := by
  have hall := ne_space_of_mem hn
  have htake : (name ++ ' ' :: v).takeWhile (· ≠ ' ') = name := by
    rw [List.takeWhile_append_of_pos hall]
    simp
  have hdrop : (name ++ ' ' :: v).dropWhile (· ≠ ' ') = ' ' :: v := by
    rw [List.dropWhile_append_of_pos hall]
    simp
  simp only [ofLine?, htake, hdrop, ht, Text.trim_cons_space (t := v) (c := ' ') (by decide), hvt]
  simp [hv]

lemma ofLine?_toLine (h : tag.Tidy) : ofLine? tag.toLine = some tag := by
  obtain ⟨name, value⟩ := tag
  cases value with
  | flag => exact ofLine?_flag h.name_unspaced h.name_trimmed
  | present v =>
    obtain ⟨hv, hvt⟩ := h.value_solid v rfl
    exact ofLine?_present h.name_unspaced h.name_trimmed hv hvt

lemma trim_toLine (h : tag.Tidy) : Text.trim tag.toLine = tag.toLine := by
  obtain ⟨name, value⟩ := tag
  cases value with
  | flag =>
    refine Text.trim_eq_self_iff.mpr ⟨by simp [toLine]; decide, fun c hc => ?_⟩
    cases name with
    | nil =>
      simp only [toLine, List.getLast?_singleton, Option.mem_some] at hc
      exact hc ▸ by decide
    | cons d name =>
      rw [toLine, List.getLast?_cons_cons] at hc
      exact (Text.trim_eq_self_iff.mp h.name_trimmed).2 c hc
  | present v =>
    obtain ⟨hv, hvt⟩ := h.value_solid v rfl
    refine Text.trim_eq_self_iff.mpr ⟨by simp [toLine]; decide, fun c hc => ?_⟩
    have hline : toLine ⟨name, .present v⟩ = ('@' :: name ++ [' ']) ++ v := by simp [toLine]
    rw [hline, List.getLast?_append_of_ne_nil _ hv] at hc
    exact (Text.trim_eq_self_iff.mp hvt).2 c hc

-- A space that only ends the line would end the name too, but the name is trimmed and what follows it is blank.
lemma ofLine?_append_space {space : Text} (hs : Text.isBlank space = true) (line : Text) :
    ofLine? (line ++ space) = ofLine? line := by
  by_cases hat : line.head? = some '@'
  · obtain ⟨rest, rfl⟩ := List.head?_eq_some_iff.mp hat
    simp only [ofLine?, List.cons_append, Text.trim_takeWhile_append_space hs, Text.trim_dropWhile_append_space hs]
  · rw [ofLine?_eq_none_iff.mpr hat]
    by_cases hn : line = []
    · exact ofLine?_of_isBlank (by simpa [hn] using hs)
    · rwa [ofLine?_eq_none_iff, List.head?_append_of_ne_nil _ hn]

@[simp] lemma ofLine?_trimEnd (line : Text) : ofLine? (Text.trimEnd line) = ofLine? line := by
  obtain ⟨space, hline, hs⟩ := Text.exists_trimEnd_append line
  conv_rhs => rw [hline, ofLine?_append_space hs]

lemma ofLine?_trim_of_head (h : line.head? = some '@') : ofLine? (Text.trim line) = ofLine? line := by
  have hsolid : ∀ c ∈ line.head?, Text.isSpace c = false := by
    intro c hc
    obtain rfl := Option.some.inj (h.symm.trans hc)
    decide
  rw [Text.trim_of_head hsolid, ofLine?_trimEnd]

lemma extract_lines_removed (lines : List Text) :
    (extract lines true).lines = strip Text.isBlank (lines.filter fun l => (ofLine? l).isNone) := by
  simp [extract, Edges.cut_eq_strip]

lemma untagged_of_mem_strip_filter {lines : List Text}
    (h : line ∈ strip Text.isBlank (lines.filter fun l => (ofLine? l).isNone)) : line.head? ≠ some '@' := by
  have hnone := (List.mem_filter.mp (mem_of_mem_strip h)).2
  exact ofLine?_eq_none_iff.mp (Option.isNone_iff_eq_none.mp hnone)

end Marginalia.Tag
