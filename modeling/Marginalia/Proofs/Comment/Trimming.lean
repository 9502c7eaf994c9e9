import Marginalia.Proofs.Comment.WellFormed

/-! Trim policies compared. Which lines of a body are kept does not depend on the policy, and a line states the same
tag with and without white space at its end. -/

namespace Marginalia

namespace Body

variable (value : Text) (strip : Bool) (policy : TrimPolicy)

def keptLines : List Text :=
  Ends.strip (fun line => Text.isBlank (cleanLine strip .untouched line)) (split value)

lemma isBlank_cleanLine (line : Text) :
    Text.isBlank (cleanLine strip policy line) = Text.isBlank (cleanLine strip .untouched line) :=
  policy.isBlank_apply _

lemma normalize_eq_map_keptLines :
    normalize value strip policy = (keptLines value strip).map (cleanLine strip policy) := by
  have hblank : Text.isBlank ∘ cleanLine strip policy =
      fun line => Text.isBlank (cleanLine strip .untouched line) :=
    funext (isBlank_cleanLine strip policy)
  rw [normalize_eq_strip, Ends.strip_map, hblank, keptLines]

lemma normalize_eq_map_apply :
    normalize value strip policy = (normalize value strip .untouched).map policy.apply := by
  rw [normalize_eq_map_keptLines, normalize_eq_map_keptLines, List.map_map]
  rfl

lemma normalize_eq_nil_iff :
    normalize value strip policy = [] ↔
      ∀ line ∈ split value, Text.isBlank (cleanLine strip .untouched line) = true := by
  rw [normalize_eq_map_keptLines, List.map_eq_nil_iff, keptLines, Ends.strip_eq_nil_iff]

variable {value} in
lemma isBlank_cleanLine_of_isBlank (h : Text.isBlank value = true) :
    ∀ line ∈ split value, Text.isBlank (cleanLine strip policy line) = true := by
  intro line hl
  obtain ⟨piece, hp, rfl⟩ := List.mem_map.mp hl
  apply Text.isBlank_of_subset _ h
  intro c hc
  exact (Text.sublist_of_mem_splitOn piece hp).subset (Text.mem_of_mem_dropFinal (mem_of_mem_cleanLine hc))

theorem normalize_trimmed (value : Text) (strip : Bool) :
    normalize value strip .full = (normalize value strip .untouched).map Text.trim ∧
      normalize value strip .rightOnly = (normalize value strip .untouched).map Text.trimEnd ∧
      (∃ before kept after, split value = before ++ kept ++ after ∧
        (∀ line ∈ before ++ after, Text.isBlank (cleanLine strip .untouched line) = true) ∧
        ∀ policy, normalize value strip policy = kept.map (cleanLine strip policy)) ∧
      (∀ policy, normalize value strip policy = [] ↔
        ∀ line ∈ split value, Text.isBlank (cleanLine strip .untouched line) = true) ∧
      (Text.isBlank value = true → ∀ policy, normalize value strip policy = []) := by
  refine ⟨normalize_eq_map_apply value strip .full, normalize_eq_map_apply value strip .rightOnly, ?_,
    normalize_eq_nil_iff value strip, ?_⟩
  · obtain ⟨before, after, hsplit, hbefore, hafter⟩ :=
      Ends.exists_edges (fun line => Text.isBlank (cleanLine strip .untouched line)) (split value)
    refine ⟨before, keptLines value strip, after, hsplit, ?_, normalize_eq_map_keptLines value strip⟩
    rw [List.forall_mem_append]
    exact ⟨hbefore, hafter⟩
  · intro hblank policy
    rw [normalize_eq_nil_iff]
    exact isBlank_cleanLine_of_isBlank strip .untouched hblank

theorem normalize_trimmed_blank :
    Text.isBlank (Text.lit " \t\r\n\u3000") = true ∧
      ∀ policy, normalize (Text.lit " \t\r\n\u3000") true policy = [] := by
  have hblank : Text.isBlank (Text.lit " \t\r\n\u3000") = true := by decide
  exact ⟨hblank, (normalize_trimmed _ true).2.2.2.2 hblank⟩

end Body

namespace Tag

lemma filterMap_ofLine?_map_trimEnd (lines : List Text) :
    (lines.map Text.trimEnd).filterMap ofLine? = lines.filterMap ofLine? := by
  rw [List.filterMap_map]
  exact List.filterMap_congr fun line _ => ofLine?_trimEnd line

lemma cut_filter_map_trimEnd (lines : List Text) :
    Edges.cut ((lines.map Text.trimEnd).filter fun l => (ofLine? l).isNone) =
      (Edges.cut (lines.filter fun l => (ofLine? l).isNone)).map Text.trimEnd := by
  have hblank : Text.isBlank ∘ Text.trimEnd = Text.isBlank := funext Text.isBlank_trimEnd
  have htag : (fun l => (ofLine? l).isNone) ∘ Text.trimEnd = fun l => (ofLine? l).isNone := by
    funext line
    exact congrArg Option.isNone (ofLine?_trimEnd line)
  rw [Edges.cut_eq_strip, Edges.cut_eq_strip, List.filter_map, Ends.strip_map, hblank, htag]

lemma extract_map_trimEnd (lines : List Text) (removeTagLines : Bool) :
    extract (lines.map Text.trimEnd) removeTagLines =
      ⟨(extract lines removeTagLines).tags, (extract lines removeTagLines).lines.map Text.trimEnd⟩ := by
  cases removeTagLines with
  | false => exact congrArg₂ Extracted.mk (filterMap_ofLine?_map_trimEnd lines) rfl
  | true => exact congrArg₂ Extracted.mk (filterMap_ofLine?_map_trimEnd lines) (cut_filter_map_trimEnd lines)

lemma filterMap_ofLine?_sublist_map_trim (lines : List Text) :
    (lines.filterMap ofLine?).Sublist ((lines.map Text.trim).filterMap ofLine?) := by
  have hstated : lines.filterMap ofLine? =
      (lines.filter fun line => line.head? = some '@').filterMap (ofLine? ∘ Text.trim) := by
    rw [List.filterMap_filter]
    apply List.filterMap_congr
    intro line _
    by_cases hat : line.head? = some '@'
    · simp [hat, ofLine?_trim_of_head hat]
    · simp [hat, ofLine?_eq_none_iff.mpr hat]
  rw [hstated, List.filterMap_map]
  exact List.filter_sublist.filterMap _

end Tag

namespace RawComment

variable (raw : RawComment) (settings : Settings)

def extracted : Tag.Extracted :=
  if settings.parseTags then Tag.extract (raw.cleanLines settings) settings.removeTagLines
  else ⟨[], raw.cleanLines settings⟩

lemma assemble_tags_eq_extracted : (raw.assemble settings).tags = (raw.extracted settings).tags := rfl

lemma assemble_lines_eq_extracted : (raw.assemble settings).lines = (raw.extracted settings).lines := rfl

lemma cleanLines_eq_map_apply (policy : TrimPolicy) :
    raw.cleanLines { settings with trim := policy } =
      (raw.cleanLines { settings with trim := .untouched }).map policy.apply :=
  Body.normalize_eq_map_apply _ _ _

lemma extracted_rightOnly :
    raw.extracted { settings with trim := .rightOnly } =
      ⟨(raw.extracted { settings with trim := .untouched }).tags,
        (raw.extracted { settings with trim := .untouched }).lines.map Text.trimEnd⟩ := by
  rw [extracted, extracted, cleanLines_eq_map_apply raw settings .rightOnly]
  split
  · exact Tag.extract_map_trimEnd _ _
  · rfl

lemma extracted_tags_sublist_full :
    (raw.extracted { settings with trim := .untouched }).tags.Sublist
      (raw.extracted { settings with trim := .full }).tags := by
  rw [extracted, extracted, cleanLines_eq_map_apply raw settings .full]
  split
  · exact Tag.filterMap_ofLine?_sublist_map_trim _
  · exact List.Sublist.refl _

theorem assemble_less_trimmed (raw : RawComment) (settings : Settings) :
    let under policy := raw.assemble { settings with trim := policy }
    (under .untouched).tags = (under .rightOnly).tags ∧
      (under .untouched).tags.Sublist (under .full).tags ∧
      (under .rightOnly).lines = (under .untouched).lines.map Text.trimEnd := by
  intro under
  have hright := extracted_rightOnly raw settings
  refine ⟨?_, ?_, ?_⟩
  · simp only [under, assemble_tags_eq_extracted, hright]
  · simp only [under, assemble_tags_eq_extracted]
    exact extracted_tags_sublist_full raw settings
  · simp only [under, assemble_lines_eq_extracted, hright]

-- An indented line states a tag only once its indentation is gone.
example :
    let raw : RawComment := ⟨Text.lit "@a\t x \n @b ", 1, 2, none⟩
    (raw.assemble ⟨false, true, true, .untouched⟩).tags = [⟨Text.lit "a", .present ['x']⟩] ∧
      (raw.assemble ⟨false, true, true, .full⟩).tags =
        [⟨Text.lit "a", .present ['x']⟩, ⟨Text.lit "b", .flag⟩] := by
  decide

end RawComment

end Marginalia
