import Marginalia.Proofs.Report.TextLayout
import Mathlib.Algebra.GroupWithZero.Nat

/-! The text report line by line: the reports on two lists of files, one after the other, are the report on both, and
what is printed for assembled comments has as many line feeds as lines and tags, bounds and headings. -/

namespace Marginalia

namespace Text

variable {lines : List Text}

lemma flatMap_lines_eq_joinLines (h : lines ≠ []) :
    (lines.flatMap fun line => line ++ ['\n']) = joinLines lines ++ ['\n'] := by
  induction lines with
  | nil => exact absurd rfl h
  | cons line lines ih =>
    cases lines with
    | nil => simp [joinLines]
    | cons next lines =>
      rw [List.flatMap_cons, ih (List.cons_ne_nil next lines), joinLines, joinLines,
        List.intercalate_cons_cons]
      simp

lemma count_flatMap_lines (h : ∀ line ∈ lines, '\n' ∉ line) :
    (lines.flatMap fun line => line ++ ['\n']).count '\n' = lines.length := by
  induction lines with
  | nil => rfl
  | cons line lines ih =>
    rw [List.forall_mem_cons] at h
    rw [List.flatMap_cons, List.count_append, List.count_append, List.count_eq_zero_of_not_mem h.1, ih h.2,
      List.count_singleton_self, List.length_cons]
    omega

end Text

namespace Report

variable {f : FileComments} {files : List FileComments}

lemma text_append (a b : List FileComments) : text (a ++ b) = text a ++ text b := by
  rw [text, List.flatMap_append, List.flatMap_append, text, text]

lemma text_eq_joinLines (h : files ≠ []) : text files = Text.joinLines (files.flatMap fileLines) ++ ['\n'] := by
  obtain ⟨f, files, rfl⟩ := List.exists_cons_of_ne_nil h
  apply Text.flatMap_lines_eq_joinLines
  simp [fileLines]

lemma text_eq_ite (files : List FileComments) :
    text files = if files.isEmpty then [] else Text.joinLines (files.flatMap fileLines) ++ ['\n'] := by
  cases files with
  | nil => rfl
  | cons f files => exact text_eq_joinLines (List.cons_ne_nil f files)

lemma getLast?_text (h : files ≠ []) : (text files).getLast? = some '\n' := by
  rw [text_eq_joinLines h, List.getLast?_concat]

lemma length_commentLines (c : Comment) : (commentLines c).length = 1 + c.lines.length + c.tags.length := by
  simp only [commentLines, List.length_append, List.length_cons, List.length_map]
  omega

lemma length_fileLines (f : FileComments) :
    (fileLines f).length = 1 + (f.comments.map fun c => 1 + c.lines.length + c.tags.length).sum := by
  rw [fileLines, List.length_cons, List.length_flatMap, funext length_commentLines, Nat.add_comm]

lemma heading_single (h : '\n' ∉ f.file) : '\n' ∉ heading f := by
  have hn := Text.notMem_numeral (c := '\n') (by decide) f.comments.length
  simp [heading, h, hn, Text.lit]

structure Printable (f : FileComments) : Prop where
  label_single : '\n' ∉ f.file
  assembled : ∀ c ∈ f.comments, ∃ (raw : RawComment) (settings : Settings), raw.assemble settings = c

lemma Printable.fileLines_single (h : Printable f) : ∀ line ∈ fileLines f, '\n' ∉ line := by
  rw [fileLines, List.forall_mem_cons]
  refine ⟨heading_single h.label_single, fun line hl => ?_⟩
  obtain ⟨c, hm, hl⟩ := List.mem_flatMap.mp hl
  obtain ⟨raw, settings, rfl⟩ := h.assembled c hm
  exact commentLines_single (fun _ => RawComment.notMem_of_mem_lines)
    (fun _ => RawComment.notMem_toLine_of_mem_tags) line hl

theorem text_line_accurate :
    (∀ a b, text (a ++ b) = text a ++ text b) ∧
      (∀ files, text files =
        if files.isEmpty then [] else Text.joinLines (files.flatMap fileLines) ++ ['\n']) ∧
      ∀ files, (∀ f ∈ files, Printable f) →
        (text files).count '\n' =
          (files.map fun f => 1 + (f.comments.map fun c => 1 + c.lines.length + c.tags.length).sum).sum ∧
        (text files = [] ∨ (text files).getLast? = some '\n') := by
  refine ⟨text_append, text_eq_ite, fun files h => ⟨?_, ?_⟩⟩
  · have hsingle : ∀ line ∈ files.flatMap fileLines, '\n' ∉ line := by
      intro line hl
      obtain ⟨f, hf, hl⟩ := List.mem_flatMap.mp hl
      exact (h f hf).fileLines_single line hl
    rw [text, Text.count_flatMap_lines hsingle, List.length_flatMap, funext length_fileLines]
  · by_cases hn : files = []
    · exact .inl (by rw [hn]; rfl)
    · exact .inr (getLast?_text hn)

def sampleFiles : List FileComments :=
  [⟨Text.lit "a.js", [RawComment.assemble ⟨Text.lit "*\r\n * A\n\n * @x 1", 1, 4, none⟩ ⟨false, true, true, .full⟩,
      RawComment.assemble ⟨Text.lit " @y", 6, 6, none⟩ ⟨false, false, true, .untouched⟩]⟩,
    ⟨Text.lit "b.js", []⟩]

theorem text_line_accurate_sample :
    (∀ f ∈ sampleFiles, Printable f) ∧ (text sampleFiles).count '\n' = 7 ∧
      (text sampleFiles = [] ∨ (text sampleFiles).getLast? = some '\n') := by
  have h : ∀ f ∈ sampleFiles, Printable f := by
    simp only [sampleFiles, List.forall_mem_cons, List.not_mem_nil, false_imp_iff, implies_true, and_true]
    refine ⟨⟨by decide, ?_⟩, ⟨by decide, by simp⟩⟩
    simp only [List.forall_mem_cons, List.not_mem_nil, false_imp_iff, implies_true, and_true]
    exact ⟨⟨_, _, rfl⟩, ⟨_, _, rfl⟩⟩
  obtain ⟨hcount, hend⟩ := text_line_accurate.2.2 sampleFiles h
  exact ⟨h, hcount.trans (by decide), hend⟩

end Report

end Marginalia
