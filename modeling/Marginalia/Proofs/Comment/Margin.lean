import Marginalia.Proofs.Comment.Lines

/-! What cleaning takes from a body without trimming: the margin and the line end of each line, and blank lines at
both ends. With these put back the body is there again. -/

namespace Marginalia.Body

def firstSolid? (line : Text) : Option Char := line.find? fun c => !Text.isSpace c

/-- A line of a body in three parts, of which cleaning keeps the second. There is a margin exactly if markers are
stripped and the line begins, after white space, with a star. -/
structure Row (strip : Bool) where
  margin : Text
  content : Text
  ending : Text
  margin_shape : margin = [] ∨ ∃ space, Text.isBlank space = true ∧ margin = space ++ ['*']
  margin_ne_nil_iff : margin ≠ [] ↔ strip = true ∧ firstSolid? (margin ++ content) = some '*'
  ending_shape : ending = [] ∨ ending = ['\r']

def Row.line {strip : Bool} (row : Row strip) : Text := row.margin ++ row.content

def Row.text {strip : Bool} (row : Row strip) : Text := row.line ++ row.ending

lemma hasMarker_iff {line : Text} : hasMarker line = true ↔ firstSolid? line = some '*' := by
  have hstart : firstSolid? line = (Text.trimStart line).head? := by
    simp only [firstSolid?, List.find?_eq_head?_dropWhile_not, Bool.not_not]
    rfl
  rw [hasMarker, Option.isSome_iff_exists, hstart, List.head?_eq_some_iff]
  constructor
  · rintro ⟨rest, hrest⟩
    exact ⟨rest, Text.after?_eq_some_iff.mp hrest⟩
  · rintro ⟨rest, hrest⟩
    exact ⟨rest, Text.after?_eq_some_iff.mpr hrest⟩

def margin (strip : Bool) (line : Text) : Text :=
  if strip && hasMarker line then line.takeWhile Text.isSpace ++ ['*'] else []

section Margin

variable (strip : Bool) (line : Text)

lemma margin_shape :
    margin strip line = [] ∨ ∃ space, Text.isBlank space = true ∧ margin strip line = space ++ ['*'] := by
  unfold margin
  split
  · exact .inr ⟨_, Text.isBlank_iff.mpr fun _ hc => List.mem_takeWhile_imp hc, rfl⟩
  · exact .inl rfl

lemma margin_ne_nil_iff : margin strip line ≠ [] ↔ strip = true ∧ firstSolid? line = some '*' := by
  rw [← hasMarker_iff, ← Bool.and_eq_true, margin]
  split
  · next h => simp [h]
  · next h => simp [h]

lemma margin_append_cleanLine : margin strip line ++ cleanLine strip .untouched line = line := by
  cases strip with
  | false => rfl
  | true =>
    cases hm : afterMarker? line with
    | none => simp [margin, hasMarker, cleanLine, stripMarker, hm, TrimPolicy.apply]
    | some rest =>
      have hstart : line.dropWhile Text.isSpace = '*' :: rest := Text.after?_eq_some_iff.mp hm
      have hline : line.takeWhile Text.isSpace ++ '*' :: rest = line := by
        rw [← hstart, List.takeWhile_append_dropWhile]
      simpa [margin, hasMarker, cleanLine, stripMarker, hm, TrimPolicy.apply] using hline

end Margin

lemma exists_row (strip : Bool) (piece : Text) :
    ∃ row : Row strip, row.content = cleanLine strip .untouched (Text.dropFinal '\r' piece) ∧
      row.line = Text.dropFinal '\r' piece ∧ row.text = piece := by
  obtain ⟨ending, hpiece, hending⟩ := Text.dropFinal_append '\r' piece
  have hline := margin_append_cleanLine strip (Text.dropFinal '\r' piece)
  let row : Row strip := {
    margin := margin strip (Text.dropFinal '\r' piece)
    content := cleanLine strip .untouched (Text.dropFinal '\r' piece)
    ending := ending
    margin_shape := margin_shape strip _
    margin_ne_nil_iff := by
      rw [hline]
      exact margin_ne_nil_iff strip _
    ending_shape := hending }
  have hrow : row.line = Text.dropFinal '\r' piece := hline
  refine ⟨row, rfl, hrow, ?_⟩
  rw [Row.text, hrow]
  exact hpiece.symm

lemma exists_rows (strip : Bool) (value : Text) :
    ∃ rows : List (Row strip), rows.map Row.content = (split value).map (cleanLine strip .untouched) ∧
      rows.map Row.line = split value ∧ value = Text.joinLines (rows.map Row.text) := by
  choose row hcontent hline htext using exists_row strip
  refine ⟨(value.splitOn '\n').map row, ?_, ?_, ?_⟩
  · rw [split, List.map_map, List.map_map]
    exact List.map_congr_left fun piece _ => hcontent piece
  · rw [split, List.map_map]
    exact List.map_congr_left fun piece _ => hline piece
  · have hpieces : (value.splitOn '\n').map (Row.text ∘ row) = value.splitOn '\n' := by
      rw [show Row.text ∘ row = id from funext htext, List.map_id]
    rw [List.map_map, hpieces]
    exact (List.intercalate_splitOn '\n').symm

theorem normalize_untrimmed_lossless (value : Text) (strip : Bool) :
    let bare := (split value).map (if strip then stripMarker else id)
    (∃ before after, bare = before ++ normalize value strip .untouched ++ after ∧
      (∀ l ∈ before, Text.isBlank l = true) ∧ ∀ l ∈ after, Text.isBlank l = true) ∧
    ∃ rows : List (Row strip), rows.map Row.content = bare ∧ rows.map Row.line = split value ∧
      value = Text.joinLines (rows.map Row.text) := by
  have hclean : (if strip then stripMarker else id) = cleanLine strip .untouched := by
    cases strip <;> rfl
  rw [hclean, normalize_eq_strip]
  exact ⟨Ends.exists_edges Text.isBlank _, exists_rows strip value⟩

end Marginalia.Body
