import Marginalia.Proofs.Comment.Lines
import Marginalia.Proofs.Comment.Tags

/-! Lines and tags that are written down and read again. Cleaned lines, joined by line feeds, are cleaned to themselves;
lines from which tag lines were removed hold no more tags; a tag is read back from its line if a line can state it. -/

namespace Marginalia

namespace TrimPolicy

variable {policy : TrimPolicy} {t : Text}

lemma apply_sublist (policy : TrimPolicy) (t : Text) : (policy.apply t).Sublist t := by
  cases policy with
  | full => exact (Ends.strip_isInfix Text.isSpace t).sublist
  | rightOnly => exact (List.rdropWhile_prefix Text.isSpace t).sublist
  | untouched => exact List.Sublist.refl t

lemma last_solid_of_apply (h : policy ≠ .untouched) (ht : policy.apply t = t) :
    ∀ c ∈ t.getLast?, Text.isSpace c = false := by
  cases policy with
  | full => exact (Text.trim_eq_self_iff.mp ht).2
  | rightOnly =>
    intro c hc
    obtain ⟨s, rfl⟩ := List.getLast?_eq_some_iff.mp hc
    have hlast := List.rdropWhile_eq_self_iff.mp ht (by simp)
    simpa using hlast
  | untouched => exact absurd rfl h

end TrimPolicy

namespace Body

variable {trim : TrimPolicy} {lines : List Text}

/-- Lines that cleaning finds nothing to do on, each of them a whole line of the body that they make together. -/
structure Clean (trim : TrimPolicy) (lines : List Text) : Prop where
  single : ∀ l ∈ lines, '\n' ∉ l
  unreturned : ∀ l ∈ lines, l.getLast? ≠ some '\r'
  trimmed : ∀ l ∈ lines, trim.apply l = l
  first_solid : ∀ l ∈ lines.head?, Text.isBlank l = false
  last_solid : ∀ l ∈ lines.getLast?, Text.isBlank l = false

lemma normalize_joinLines (h : ∀ l ∈ lines, '\n' ∉ l) (trim : TrimPolicy) :
    normalize (Text.joinLines lines) false trim =
      Ends.strip Text.isBlank (lines.map fun l => trim.apply (Text.dropFinal '\r' l)) := by
  by_cases hn : lines = []
  · -- No lines are joined to the empty body, which has one line, and that line is blank.
    subst hn
    cases trim <;> rfl
  · have hsplit : (Text.joinLines lines).splitOn '\n' = lines := List.splitOn_intercalate '\n' h hn
    rw [normalize_eq_strip, split, hsplit, List.map_map]
    rfl

lemma Clean.normalize_joinLines (h : Clean trim lines) :
    normalize (Text.joinLines lines) false trim = lines := by
  have hlines : lines.map (fun l => trim.apply (Text.dropFinal '\r' l)) = lines := by
    conv_rhs => rw [← List.map_id lines]
    apply List.map_congr_left
    intro l hl
    rw [Text.dropFinal_eq_self_iff.mpr (h.unreturned l hl), h.trimmed l hl, id]
  rw [Body.normalize_joinLines h.single, hlines, Ends.strip_eq_self_iff]
  exact ⟨h.first_solid, h.last_solid⟩

-- Every line is read, so none is cut from the ends, and a line that ended in a return would come back shorter.
lemma unreturned_of_normalize_joinLines (h : normalize (Text.joinLines lines) false trim = lines) :
    ∀ l ∈ lines, l.getLast? ≠ some '\r' := by
  have hsingle : ∀ l ∈ lines, '\n' ∉ l := fun l hl => notMem_of_mem_normalize (h.symm ▸ hl)
  rw [normalize_joinLines hsingle] at h
  have hkept := (Ends.strip_isInfix Text.isBlank _).eq_of_length ((congrArg List.length h).trans (by simp))
  have hread : lines.map (fun l => trim.apply (Text.dropFinal '\r' l)) = lines.map id := by
    rw [← hkept, h, List.map_id]
  intro l hl
  have hline : trim.apply (Text.dropFinal '\r' l) = l := List.map_inj_left.mp hread l hl
  have hle : l.length ≤ (Text.dropFinal '\r' l).length := by
    conv_lhs => rw [← hline]
    exact (trim.apply_sublist _).length_le
  obtain ⟨rest, hrest, -⟩ := Text.dropFinal_append '\r' l
  have hstart : Text.dropFinal '\r' l <+: l := ⟨rest, hrest.symm⟩
  exact Text.dropFinal_eq_self_iff.mp (hstart.eq_of_length_le hle)

lemma clean_normalize {value : Text} {strip : Bool}
    (h : ∀ l ∈ normalize value strip trim, l.getLast? ≠ some '\r') : Clean trim (normalize value strip trim) where
  single _ := notMem_of_mem_normalize
  unreturned := h
  trimmed _ := apply_of_mem_normalize
  first_solid _ hl := Ends.head_strip (normalize_eq_strip value strip trim ▸ hl)
  last_solid _ hl := Ends.last_strip (normalize_eq_strip value strip trim ▸ hl)

lemma normalize_joinLines_eq_self_iff :
    normalize (Text.joinLines lines) false trim = lines ↔ Clean trim lines := by
  refine ⟨fun h => ?_, Clean.normalize_joinLines⟩
  have hunreturned := unreturned_of_normalize_joinLines h
  rw [← h] at hunreturned ⊢
  exact clean_normalize hunreturned

lemma unreturned_of_mem_normalize {value line : Text} {strip : Bool} (ht : trim ≠ .untouched)
    (h : line ∈ normalize value strip trim) : line.getLast? ≠ some '\r' := by
  intro hr
  have hsolid := TrimPolicy.last_solid_of_apply ht (apply_of_mem_normalize h) '\r' hr
  exact absurd hsolid (by decide)

end Body

namespace Tag

variable {lines : List Text}

lemma extract_removed_eq_self (htag : ∀ l ∈ lines, l.head? ≠ some '@')
    (hedges : Ends.strip Text.isBlank lines = lines) : extract lines true = ⟨[], lines⟩ := by
  have hnone : ∀ l ∈ lines, ofLine? l = none := fun l hl => ofLine?_eq_none_iff.mpr (htag l hl)
  have htags : lines.filterMap ofLine? = [] := List.filterMap_eq_nil_iff.mpr hnone
  have hlines : (extract lines true).lines = lines := by
    rw [extract_lines_removed, List.filter_eq_self.mpr fun l hl => by simp [hnone l hl], hedges]
  exact congrArg₂ Extracted.mk htags hlines

lemma extract_removed_again (lines : List Text) :
    extract (extract lines true).lines true = ⟨[], (extract lines true).lines⟩ := by
  apply extract_removed_eq_self
  · intro l hl
    rw [extract_lines_removed] at hl
    exact untagged_of_mem_strip_filter hl
  · rw [extract_lines_removed, Ends.strip_strip]

end Tag

namespace Body

theorem normalize_reread (value : Text) (strip : Bool) (trim : TrimPolicy) (ht : trim ≠ .untouched) :
    normalize (Text.joinLines (normalize value strip trim)) false trim = normalize value strip trim ∧
      (∀ lines, Tag.extract (Tag.extract lines true).lines true = ⟨[], (Tag.extract lines true).lines⟩) ∧
      ∀ lines policy, normalize (Text.joinLines lines) false policy = lines ↔ Clean policy lines :=
  ⟨(clean_normalize fun _ => unreturned_of_mem_normalize ht).normalize_joinLines, Tag.extract_removed_again,
    fun _ _ => normalize_joinLines_eq_self_iff⟩

theorem normalize_reread_returns :
    let body := Text.lit "*\r\n *  a \r\r\n *\r\n * @b\r\n"
    TrimPolicy.rightOnly ≠ .untouched ∧
      normalize body true .rightOnly = [Text.lit "  a", [], Text.lit " @b"] ∧
      normalize (Text.joinLines (normalize body true .rightOnly)) false .rightOnly =
        normalize body true .rightOnly := by
  intro body
  have ht : TrimPolicy.rightOnly ≠ .untouched := by decide
  exact ⟨ht, by decide, (normalize_reread body true .rightOnly ht).1⟩

-- Untrimmed, a line can keep a return, and the next reading takes it for a part of the line end.
example :
    normalize (Text.lit "a\r\r\nb") false .untouched = [Text.lit "a\r", Text.lit "b"] ∧
      normalize (Text.joinLines [Text.lit "a\r", Text.lit "b"]) false .untouched =
        [Text.lit "a", Text.lit "b"] := by
  decide

end Body

namespace Tag

lemma tidy_iff {tag : Tag} :
    tag.Tidy ↔ ' ' ∉ tag.name ∧ Text.trim tag.name = tag.name ∧
      (tag.value = .flag ∨ ∃ v, tag.value = .present v ∧ v ≠ [] ∧ Text.trim v = v) := by
  constructor
  · intro h
    refine ⟨h.name_unspaced, h.name_trimmed, ?_⟩
    cases hv : tag.value with
    | flag => exact .inl rfl
    | present v => exact .inr ⟨v, rfl, h.value_solid v hv⟩
  · rintro ⟨hname, htrim, hvalue⟩
    refine ⟨hname, htrim, fun v hv => ?_⟩
    obtain hflag | ⟨w, hw, hsolid⟩ := hvalue
    · cases hflag.symm.trans hv
    · cases hw.symm.trans hv
      exact hsolid

theorem toLine_reread (tag : Tag) :
    (∀ line, ofLine? line = some tag → ofLine? tag.toLine = some tag) ∧
      (ofLine? tag.toLine = some tag ↔
        ' ' ∉ tag.name ∧ Text.trim tag.name = tag.name ∧
          (tag.value = .flag ∨ ∃ v, tag.value = .present v ∧ v ≠ [] ∧ Text.trim v = v)) := by
  refine ⟨fun line h => ofLine?_toLine (ofLine?_tidy h), ?_⟩
  rw [← tidy_iff]
  exact ⟨ofLine?_tidy, ofLine?_toLine⟩

theorem toLine_reread_tabs :
    let line := Text.lit "@\ta\tb\u3000 \t x  y "
    let tag : Tag := ⟨Text.lit "a\tb", .present (Text.lit "x  y")⟩
    ofLine? line = some tag ∧ tag.toLine = Text.lit "@a\tb x  y" ∧ ofLine? tag.toLine = some tag := by
  intro line tag
  have hread : ofLine? line = some tag := by decide
  exact ⟨hread, by decide, (toLine_reread tag).1 line hread⟩

end Tag

end Marginalia
