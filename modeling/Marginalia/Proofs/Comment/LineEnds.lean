import Marginalia.Proofs.Comment.Lines

/-! Line ends. Cutting a return off each line of a body is the same as turning every pair of a return and a line
feed into a line feed before the body is split, but for a return that ends the whole body. -/

namespace Marginalia

namespace Text

def unifyLineEnds : Text → Text
  | '\r' :: '\n' :: t => '\n' :: unifyLineEnds t
  | c :: t => c :: unifyLineEnds t
  | [] => []

lemma line_induction {motive : Text → Prop} (last : ∀ line, '\n' ∉ line → motive line)
    (next : ∀ line rest, '\n' ∉ line → motive rest → motive (line ++ '\n' :: rest)) (t : Text) : motive t := by
  induction hn : t.length using Nat.strong_induction_on generalizing t with
  | _ n ih =>
    by_cases h : '\n' ∈ t
    · obtain ⟨line, rest, rfl, hline⟩ := List.eq_append_cons_of_mem h
      apply next line rest hline
      apply ih rest.length _ rest rfl
      rw [← hn, List.length_append, List.length_cons]
      omega
    · exact last t h

variable {line : Text}

lemma unifyLineEnds_eq_self (h : '\n' ∉ line) : unifyLineEnds line = line := by
  fun_induction unifyLineEnds line with
  | case1 t ih => simp at h
  | case2 c t hne ih =>
    rw [ih]
    exact fun hm => h (List.mem_cons_of_mem c hm)
  | case3 => rfl

lemma unifyLineEnds_append (h : '\n' ∉ line) (rest : Text) :
    unifyLineEnds (line ++ '\n' :: rest) = dropFinal '\r' line ++ '\n' :: unifyLineEnds rest := by
  induction line with
  | nil => rfl
  | cons c line ih =>
    have hline : '\n' ∉ line := fun hm => h (List.mem_cons_of_mem c hm)
    by_cases hc : c ≠ '\r' ∨ line ≠ []
    · have hpair : ∀ t, c = '\r' → line ++ '\n' :: rest = '\n' :: t → False := by
        rintro t rfl ht
        obtain ⟨d, line, rfl⟩ := List.exists_cons_of_ne_nil (hc.resolve_left (by simp))
        exact hline ((List.cons.inj ht).1 ▸ List.mem_cons_self)
      rw [List.cons_append, unifyLineEnds.eq_2 _ _ hpair, ih hline, dropFinal_cons hc, List.cons_append]
    · obtain ⟨rfl, rfl⟩ : c = '\r' ∧ line = [] := by simpa using hc
      rfl

lemma exists_splitOn_unifyLineEnds (t : Text) :
    ∃ front last, t.splitOn '\n' = front ++ [last] ∧
      (unifyLineEnds t).splitOn '\n' = front.map (dropFinal '\r') ++ [last] ∧
      (dropFinal '\r' t).splitOn '\n' = front ++ [dropFinal '\r' last] := by
  induction t using line_induction with
  | last line h =>
    refine ⟨[], line, List.splitOn_eq_singleton h, ?_, ?_⟩
    · rw [unifyLineEnds_eq_self h]
      exact List.splitOn_eq_singleton h
    · exact List.splitOn_eq_singleton fun hm => h (mem_of_mem_dropFinal hm)
  | next line rest h ih =>
    obtain ⟨front, last, hs, hu, hd⟩ := ih
    have hcut : '\n' ∉ dropFinal '\r' line := fun hm => h (mem_of_mem_dropFinal hm)
    refine ⟨line :: front, last, ?_, ?_, ?_⟩
    · rw [List.splitOn_append_cons_self_of_not_mem h, hs, List.cons_append]
    · rw [unifyLineEnds_append h, List.splitOn_append_cons_self_of_not_mem hcut, hu, List.map_cons,
        List.cons_append]
    · rw [dropFinal_append_cons (by decide), List.splitOn_append_cons_self_of_not_mem h, hd, List.cons_append]

end Text

namespace Body

def afterStar? : Text → Option Text
  | [] => none
  | c :: line => if c = '*' then some line else if Text.isSpace c then afterStar? line else none

def unmarked (strip : Bool) (line : Text) : Text := if strip then (afterStar? line).getD line else line

/-- Unify line ends, split at line feeds, remove a star after optional white space from each line, trim each
line, and drop blank lines from both ends. -/
def described (value : Text) (strip : Bool) (trim : TrimPolicy) : List Text :=
  Ends.strip Text.isBlank ((value.unifyLineEnds.splitOn '\n').map fun line => trim.apply (unmarked strip line))

lemma afterMarker?_eq_afterStar? (line : Text) : afterMarker? line = afterStar? line := by
  induction line with
  | nil => rfl
  | cons c line ih =>
    rw [afterMarker?, Text.trimStart] at ih ⊢
    rw [afterStar?]
    by_cases hstar : c = '*'
    · subst hstar
      rw [if_pos rfl, List.dropWhile_cons_of_neg (by decide), Text.after?_eq_some_iff]
      rfl
    by_cases hspace : Text.isSpace c = true
    · rw [if_neg hstar, if_pos hspace, List.dropWhile_cons_of_pos hspace, ih]
    · rw [if_neg hstar, if_neg hspace, List.dropWhile_cons_of_neg hspace, Option.eq_none_iff_forall_ne_some]
      intro rest hrest
      exact hstar (List.cons.inj (Text.after?_eq_some_iff.mp hrest)).1

lemma cleanLine_eq_apply_unmarked (strip : Bool) (trim : TrimPolicy) (line : Text) :
    cleanLine strip trim line = trim.apply (unmarked strip line) := by
  rw [cleanLine, unmarked, stripMarker, afterMarker?_eq_afterStar?]

lemma split_eq_splitOn_unifyLineEnds (value : Text) :
    split value = (Text.dropFinal '\r' value).unifyLineEnds.splitOn '\n' := by
  obtain ⟨front, last, hs, -, hd⟩ := value.exists_splitOn_unifyLineEnds
  obtain ⟨front', last', hs', hu, -⟩ := (Text.dropFinal '\r' value).exists_splitOn_unifyLineEnds
  obtain ⟨rfl, hlast⟩ := List.append_inj' (hs'.symm.trans hd) rfl
  rw [hu, hlast, split, hs, List.map_append, List.map_singleton]

lemma normalize_eq_described_dropFinal (value : Text) (strip : Bool) (trim : TrimPolicy) :
    normalize value strip trim = described (Text.dropFinal '\r' value) strip trim := by
  rw [normalize_eq_strip, described, split_eq_splitOn_unifyLineEnds]
  congr 2
  funext line
  exact cleanLine_eq_apply_unmarked strip trim line

section FinalReturn

variable {c : Char} (hc : Text.isSpace c = true)

include hc

lemma afterStar?_concat (line : Text) : afterStar? (line ++ [c]) = (afterStar? line).map (· ++ [c]) := by
  induction line with
  | nil =>
    have hstar : c ≠ '*' := by
      rintro rfl
      exact absurd hc (by decide)
    simp [afterStar?, hstar]
  | cons d line ih =>
    rw [List.cons_append, afterStar?, afterStar?, ih]
    split
    · rfl
    · split <;> rfl

lemma unmarked_concat (strip : Bool) (line : Text) :
    unmarked strip (line ++ [c]) = unmarked strip line ++ [c] := by
  cases strip with
  | false => rfl
  | true =>
    simp only [unmarked, if_true, afterStar?_concat hc]
    cases afterStar? line <;> rfl

end FinalReturn

/-- A return ends the body, and more than white space stands before it on its line. -/
def EndsInReturn (strip : Bool) (value : Text) : Prop :=
  ∃ line, (value.splitOn '\n').getLast? = some (line ++ ['\r']) ∧ Text.isBlank (unmarked strip line) = false

lemma normalize_eq_described_iff (value : Text) (strip : Bool) (trim : TrimPolicy) :
    normalize value strip trim = described value strip trim ↔ ¬(trim = .untouched ∧ EndsInReturn strip value) := by
  obtain ⟨front, last, hs, hu, -⟩ := value.exists_splitOn_unifyLineEnds
  have hnormalize : normalize value strip trim = Ends.strip Text.isBlank
      ((front.map (Text.dropFinal '\r')).map (cleanLine strip trim) ++
        [cleanLine strip trim (Text.dropFinal '\r' last)]) := by
    simp only [normalize_eq_strip, split, hs, List.map_append, List.map_singleton]
  have hdescribed : described value strip trim = Ends.strip Text.isBlank
      ((front.map (Text.dropFinal '\r')).map (cleanLine strip trim) ++ [cleanLine strip trim last]) := by
    simp only [described, hu, ← cleanLine_eq_apply_unmarked, List.map_append, List.map_singleton]
  have hends : EndsInReturn strip value ↔
      ∃ line, last = line ++ ['\r'] ∧ Text.isBlank (unmarked strip line) = false := by
    simp only [EndsInReturn, hs, List.getLast?_concat, Option.some.injEq]
  rw [hnormalize, hdescribed, hends]
  by_cases hlast : last.getLast? = some '\r'
  · obtain ⟨line, rfl⟩ := List.getLast?_eq_some_iff.mp hlast
    have hr : Text.isSpace '\r' = true := by decide
    rw [Text.dropFinal_concat, cleanLine_eq_apply_unmarked, cleanLine_eq_apply_unmarked, unmarked_concat hr]
    by_cases ht : trim = .untouched
    · -- Untrimmed, the two last lines differ by the return, which shows unless both are dropped as blank.
      subst ht
      have hblank : Text.isBlank (unmarked strip line) = Text.isBlank (unmarked strip line ++ ['\r']) :=
        (Text.isBlank_concat hr).symm
      rw [TrimPolicy.apply, id, id, Ends.strip_concat_eq_iff hblank]
      simp
    · simp [TrimPolicy.apply_concat ht hr, ht]
  · have hnot : ∀ line, last ≠ line ++ ['\r'] := by
      rintro line rfl
      exact hlast List.getLast?_concat
    simp [Text.dropFinal, hlast, hnot]

theorem normalize_described (value : Text) (strip : Bool) (trim : TrimPolicy) :
    normalize value strip trim = described (Text.dropFinal '\r' value) strip trim ∧
      (normalize value strip trim = described value strip trim ↔
        ¬(trim = .untouched ∧ EndsInReturn strip value)) :=
  ⟨normalize_eq_described_dropFinal value strip trim, normalize_eq_described_iff value strip trim⟩

theorem final_return_missed :
    described (Text.lit "a\r") false .untouched = [Text.lit "a\r"] ∧
      normalize (Text.lit "a\r") false .untouched = [Text.lit "a"] := by
  decide

end Body

end Marginalia
