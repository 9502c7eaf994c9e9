import Marginalia.Comment.Assemble
import Marginalia.Proofs.Comment.Lines
import Marginalia.Proofs.Comment.Tags

/-! What holds of every assembled comment, whatever its body and the settings. -/

namespace Marginalia.Comment

open Ends

structure WellFormed (raw : RawComment) (settings : Settings) (comment : Comment) : Prop where
  first_solid : ∀ l ∈ comment.lines.head?, Text.isBlank l = false
  last_solid : ∀ l ∈ comment.lines.getLast?, Text.isBlank l = false
  lines_single : ∀ l ∈ comment.lines, '\n' ∉ l
  names_single : ∀ t ∈ comment.tags, '\n' ∉ t.name
  values_single : ∀ t ∈ comment.tags, ∀ v, t.value = .present v → '\n' ∉ v
  lines_full : settings.trim = .full → ∀ l ∈ comment.lines, Text.trim l = l
  lines_rightOnly : settings.trim = .rightOnly → ∀ l ∈ comment.lines, Text.trimEnd l = l
  tag_lines_removed : settings.parseTags = true → settings.removeTagLines = true →
    ∀ l ∈ comment.lines, l.head? ≠ some '@'
  tags_unparsed : settings.parseTags = false → comment.tags = []
  names_tidy : ∀ t ∈ comment.tags, ' ' ∉ t.name ∧ Text.trim t.name = t.name
  values_tidy : ∀ t ∈ comment.tags, ∀ v, t.value = .present v → v ≠ [] ∧ Text.trim v = v
  bounds : comment.startLine = raw.startLine ∧ comment.endLine = raw.endLine
  node_included : settings.includeNode = true → comment.node = raw.node
  node_omitted : settings.includeNode = false → comment.node = none

end Marginalia.Comment

namespace Marginalia.RawComment

open Ends

variable (raw : RawComment) (settings : Settings)

def cleanLines : List Text :=
  Body.normalize raw.value (Body.stripsMarkers raw.value) settings.trim

lemma assemble_lines_unparsed (h : settings.parseTags = false) :
    (raw.assemble settings).lines = raw.cleanLines settings := by
  simp [assemble, h, cleanLines]

lemma assemble_tags_unparsed (h : settings.parseTags = false) : (raw.assemble settings).tags = [] := by
  simp [assemble, h]

lemma assemble_tags (h : settings.parseTags = true) :
    (raw.assemble settings).tags = (raw.cleanLines settings).filterMap Tag.ofLine? := by
  simp only [assemble, h, if_true]
  rfl

lemma assemble_lines_kept (h : settings.removeTagLines = false) :
    (raw.assemble settings).lines = raw.cleanLines settings := by
  cases hp : settings.parseTags <;> simp [assemble, hp, h, Tag.extract, cleanLines]

lemma assemble_lines_removed (hp : settings.parseTags = true) (hr : settings.removeTagLines = true) :
    (raw.assemble settings).lines =
      strip Text.isBlank ((raw.cleanLines settings).filter fun l => (Tag.ofLine? l).isNone) := by
  simp only [assemble, hp, hr, if_true, Tag.extract_lines_removed]
  rfl

lemma strip_assemble_lines :
    strip Text.isBlank (raw.assemble settings).lines = (raw.assemble settings).lines := by
  have hclean : strip Text.isBlank (raw.cleanLines settings) = raw.cleanLines settings := by
    rw [cleanLines, Body.normalize_eq_strip, strip_strip]
  cases hp : settings.parseTags with
  | false => rw [assemble_lines_unparsed raw settings hp, hclean]
  | true =>
    cases hr : settings.removeTagLines with
    | false => rw [assemble_lines_kept raw settings hr, hclean]
    | true => rw [assemble_lines_removed raw settings hp hr, strip_strip]

variable {raw settings} {line : Text} {tag : Tag}

lemma mem_cleanLines (h : line ∈ (raw.assemble settings).lines) : line ∈ raw.cleanLines settings := by
  cases hp : settings.parseTags with
  | false => rwa [assemble_lines_unparsed raw settings hp] at h
  | true =>
    cases hr : settings.removeTagLines with
    | false => rwa [assemble_lines_kept raw settings hr] at h
    | true =>
      rw [assemble_lines_removed raw settings hp hr] at h
      exact List.mem_of_mem_filter (mem_of_mem_strip h)

lemma exists_line_of_mem_tags (h : tag ∈ (raw.assemble settings).tags) :
    ∃ line ∈ raw.cleanLines settings, Tag.ofLine? line = some tag := by
  cases hp : settings.parseTags with
  | false => simp [assemble_tags_unparsed raw settings hp] at h
  | true =>
    rw [assemble_tags raw settings hp] at h
    exact List.mem_filterMap.mp h

theorem assemble_wellFormed (raw : RawComment) (settings : Settings) :
    Comment.WellFormed raw settings (raw.assemble settings) where
  first_solid l h := head_strip (strip_assemble_lines raw settings ▸ h)
  last_solid l h := last_strip (strip_assemble_lines raw settings ▸ h)
  lines_single l h := Body.notMem_of_mem_normalize (mem_cleanLines h)
  names_single t ht := by
    obtain ⟨line, hl, hline⟩ := exists_line_of_mem_tags ht
    exact fun hc => Body.notMem_of_mem_normalize hl ((Tag.mem_of_ofLine? hline).1 hc)
  values_single t ht v hv := by
    obtain ⟨line, hl, hline⟩ := exists_line_of_mem_tags ht
    exact fun hc => Body.notMem_of_mem_normalize hl ((Tag.mem_of_ofLine? hline).2 v hv hc)
  lines_full hf l h := by
    have ha := Body.apply_of_mem_normalize (mem_cleanLines h)
    rwa [hf] at ha
  lines_rightOnly hr l h := by
    have ha := Body.apply_of_mem_normalize (mem_cleanLines h)
    rwa [hr] at ha
  tag_lines_removed hp hr l h := by
    rw [assemble_lines_removed raw settings hp hr] at h
    have hnone := (List.mem_filter.mp (mem_of_mem_strip h)).2
    exact Tag.ofLine?_eq_none_iff.mp (Option.isNone_iff_eq_none.mp hnone)
  tags_unparsed := assemble_tags_unparsed raw settings
  names_tidy t ht := by
    obtain ⟨line, -, hline⟩ := exists_line_of_mem_tags ht
    exact ⟨(Tag.ofLine?_tidy hline).name_unspaced, (Tag.ofLine?_tidy hline).name_trimmed⟩
  values_tidy t ht v hv := by
    obtain ⟨line, -, hline⟩ := exists_line_of_mem_tags ht
    exact (Tag.ofLine?_tidy hline).value_solid v hv
  bounds := ⟨rfl, rfl⟩
  node_included h := by simp [assemble, h]
  node_omitted h := by simp [assemble, h]

end Marginalia.RawComment
