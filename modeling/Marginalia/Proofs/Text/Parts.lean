import Marginalia.Text.Basic
import Mathlib.Data.List.DropRight
import Mathlib.Tactic.Lemma

/-! Parts of a text: what follows a beginning, what stands before an ending, and the pieces between
separators. -/

namespace Marginalia.Text

variable {c d : Char} {t : Text}

lemma after?_eq_some_iff {start rest : Text} : after? start t = some rest ↔ t = start ++ rest := by
  rw [after?, List.isPrefixOf?_eq_some_iff_append_eq]
  exact eq_comm

lemma mem_of_mem_dropFinal (h : c ∈ dropFinal d t) : c ∈ t := by
  unfold dropFinal at h
  split at h
  · exact (List.dropLast_sublist t).subset h
  · exact h

lemma dropFinal_concat (c : Char) (t : Text) : dropFinal c (t ++ [c]) = t := by
  rw [dropFinal, if_pos List.getLast?_concat, List.dropLast_concat]

lemma dropFinal_eq_self_iff : dropFinal c t = t ↔ t.getLast? ≠ some c := by
  constructor
  · intro h hlast
    obtain ⟨s, rfl⟩ := List.getLast?_eq_some_iff.mp hlast
    rw [dropFinal_concat] at h
    simp at h
  · exact fun h => if_neg h

lemma dropFinal_cons (h : d ≠ c ∨ t ≠ []) : dropFinal c (d :: t) = d :: dropFinal c t := by
  obtain _ | ⟨e, t⟩ := t
  · have hd : d ≠ c := h.resolve_right (by simp)
    simp [dropFinal, hd]
  · simp only [dropFinal, List.getLast?_cons_cons, List.dropLast_cons_cons]
    split <;> rfl

lemma dropFinal_append_cons (h : d ≠ c) (s : Text) : dropFinal c (s ++ d :: t) = s ++ d :: dropFinal c t := by
  induction s with
  | nil => exact dropFinal_cons (.inl h)
  | cons e s ih => rw [List.cons_append, dropFinal_cons (.inr (by simp)), ih, List.cons_append]

lemma dropFinal_append (c : Char) (t : Text) :
    ∃ rest : Text, t = dropFinal c t ++ rest ∧ (rest = [] ∨ rest = [c]) := by
  unfold dropFinal
  split
  · next h => exact ⟨[c], (List.dropLast_append_getLast? c h).symm, .inr rfl⟩
  · exact ⟨[], (List.append_nil t).symm, .inl rfl⟩

lemma splitOn_cons_cases (c d : Char) (t : Text) :
    ∃ first rest, t.splitOn c = first :: rest ∧
      (d = c ∧ (d :: t).splitOn c = [] :: first :: rest ∨
        d ≠ c ∧ (d :: t).splitOn c = (d :: first) :: rest) := by
  obtain ⟨first, rest, hs⟩ := List.exists_cons_of_ne_nil (List.splitOn_ne_nil c t)
  refine ⟨first, rest, hs, ?_⟩
  rw [List.splitOn_cons_eq_if_modifyHead, hs]
  by_cases hd : d = c
  · exact .inl ⟨hd, by simp [hd]⟩
  · exact .inr ⟨hd, by simp [hd]⟩

lemma notMem_of_mem_splitOn : ∀ piece ∈ t.splitOn c, c ∉ piece := by
  induction t with
  | nil => simp
  | cons d t ih =>
    obtain ⟨first, rest, hs, ⟨-, hd⟩ | ⟨hne, hd⟩⟩ := splitOn_cons_cases c d t
    · simpa [hs, hd] using ih
    · simpa [hs, hd, Ne.symm hne] using ih

lemma sublist_of_mem_splitOn : ∀ piece ∈ t.splitOn c, piece.Sublist t := by
  induction t with
  | nil => simp
  | cons d t ih =>
    obtain ⟨first, rest, hs, ⟨-, hd⟩ | ⟨-, hd⟩⟩ := splitOn_cons_cases c d t
    · rw [hd, ← hs, List.forall_mem_cons]
      exact ⟨List.nil_sublist _, fun piece hp => (ih piece hp).cons d⟩
    · rw [hs, List.forall_mem_cons] at ih
      rw [hd, List.forall_mem_cons]
      exact ⟨ih.1.cons_cons d, fun piece hp => (ih.2 piece hp).cons d⟩

end Marginalia.Text
