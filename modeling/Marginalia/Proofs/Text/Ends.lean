import Marginalia.Text.Blank
import Mathlib.Data.List.DropRight

/-! Lists stripped at both ends of the items with a property. Trimming a text and cutting the blank
edges of a list of lines are the two instances. -/

namespace Marginalia.Ends

variable {α β : Type} {p : α → Bool} {l : List α} {x y : α}

def strip (p : α → Bool) (l : List α) : List α := (l.dropWhile p).rdropWhile p

lemma strip_eq_nil_iff : strip p l = [] ↔ ∀ x ∈ l, p x := by
  constructor
  · intro h x hx
    have hd := List.rdropWhile_eq_nil_iff.mp h
    rw [← List.takeWhile_append_dropWhile (p := p) (l := l)] at hx
    rcases List.mem_append.mp hx with hx | hx
    · exact List.mem_takeWhile_imp hx
    · exact hd x hx
  · intro h
    simp [strip, List.dropWhile_eq_nil_iff.mpr h]

lemma strip_isInfix (p : α → Bool) (l : List α) : strip p l <:+: l :=
  (List.rdropWhile_prefix p _).isInfix.trans (List.dropWhile_suffix p).isInfix

lemma mem_of_mem_strip (h : x ∈ strip p l) : x ∈ l := (strip_isInfix p l).subset h

lemma exists_edges (p : α → Bool) (l : List α) :
    ∃ a b, l = a ++ strip p l ++ b ∧ (∀ x ∈ a, p x) ∧ ∀ x ∈ b, p x := by
  refine ⟨l.takeWhile p, (l.dropWhile p).rtakeWhile p, ?_, fun x hx => List.mem_takeWhile_imp hx,
    fun x hx => List.mem_rtakeWhile_imp hx⟩
  rw [strip, List.append_assoc, List.rdropWhile_append_rtakeWhile, List.takeWhile_append_dropWhile]

lemma rdropWhile_append_all {b : List α} (hb : ∀ x ∈ b, p x) :
    (l ++ b).rdropWhile p = l.rdropWhile p := by
  rw [List.rdropWhile, List.reverse_append, List.dropWhile_append_of_pos (by simpa using hb)]
  rfl

lemma strip_append {a b : List α} (ha : ∀ x ∈ a, p x) (hb : ∀ x ∈ b, p x) :
    strip p (a ++ l ++ b) = strip p l := by
  rw [strip, List.append_assoc, List.dropWhile_append_of_pos ha, List.dropWhile_append]
  split
  · next h =>
    rw [strip, List.isEmpty_iff.mp h, List.dropWhile_eq_nil_iff.mpr hb]
  · rw [rdropWhile_append_all hb, strip]

lemma head_strip (h : x ∈ (strip p l).head?) : p x = false := by
  obtain ⟨t, ht⟩ := List.rdropWhile_prefix p (l := l.dropWhile p)
  have hx : x ∈ (l.dropWhile p).head? := by
    rw [← ht, List.head?_append_of_ne_nil _ (by rintro hn; simp [strip, hn] at h)]
    exact h
  have := List.head?_dropWhile_not p l
  rw [Option.mem_def.mp hx] at this
  simpa using this

lemma last_strip (h : x ∈ (strip p l).getLast?) : p x = false := by
  have hn : strip p l ≠ [] := by
    rintro hn
    simp [hn] at h
  rw [List.getLast?_eq_getLast_of_ne_nil hn, Option.mem_some] at h
  subst h
  exact Bool.eq_false_iff.mpr (List.rdropWhile_last_not p (l.dropWhile p) hn)

lemma strip_eq_self_iff :
    strip p l = l ↔ (∀ x ∈ l.head?, p x = false) ∧ ∀ x ∈ l.getLast?, p x = false := by
  constructor
  · intro h
    refine ⟨fun x hx => ?_, fun x hx => ?_⟩ <;> rw [← h] at hx
    · exact head_strip hx
    · exact last_strip hx
  · rintro ⟨hh, hl⟩
    have hd : l.dropWhile p = l := by
      cases l with
      | nil => rfl
      | cons a l => simp [hh a (by simp)]
    rw [strip, hd, List.rdropWhile_eq_self_iff]
    intro hn
    simp [hl _ (List.getLast?_eq_getLast_of_ne_nil hn)]

@[simp] lemma strip_strip : strip p (strip p l) = strip p l :=
  strip_eq_self_iff.mpr ⟨fun _ => head_strip, fun _ => last_strip⟩

lemma strip_reverse : strip p l.reverse = (strip p l).reverse := by
  obtain ⟨a, b, hl, ha, hb⟩ := exists_edges p l
  have hr : l.reverse = b.reverse ++ (strip p l).reverse ++ a.reverse := by
    conv_lhs => rw [hl, List.reverse_append, List.reverse_append]
    exact (List.append_assoc _ _ _).symm
  rw [hr, strip_append (by simpa using hb) (by simpa using ha), strip_eq_self_iff, List.head?_reverse,
    List.getLast?_reverse]
  exact ⟨fun _ => last_strip, fun _ => head_strip⟩

lemma strip_concat_of_pos (h : p x = true) : strip p (l ++ [x]) = strip p l :=
  strip_append (a := []) (by simp) (by simpa using h)

lemma getLast?_strip_concat (h : p x = false) : (strip p (l ++ [x])).getLast? = some x := by
  have hdrop : ∃ m, (l ++ [x]).dropWhile p = m ++ [x] := by
    rw [List.dropWhile_append]
    split
    · exact ⟨[], by simp [h]⟩
    · exact ⟨_, rfl⟩
  obtain ⟨m, hm⟩ := hdrop
  rw [strip, hm, List.rdropWhile_concat_neg _ _ _ (by simp [h]), List.getLast?_concat]

lemma strip_concat_eq_iff (h : p x = p y) : strip p (l ++ [x]) = strip p (l ++ [y]) ↔ x = y ∨ p x = true := by
  constructor
  · intro he
    cases hx : p x with
    | true => exact .inr rfl
    | false =>
      have hlast := getLast?_strip_concat (l := l) hx
      rw [he, getLast?_strip_concat (h ▸ hx)] at hlast
      exact .inl (Option.some.inj hlast).symm
  · rintro (rfl | hx)
    · rfl
    · rw [strip_concat_of_pos hx, strip_concat_of_pos (h ▸ hx)]

lemma strip_filter_strip (k : α → Bool) :
    strip p ((strip p l).filter k) = strip p (l.filter k) := by
  obtain ⟨a, b, h, ha, hb⟩ := exists_edges p l
  conv_rhs => rw [h, List.filter_append, List.filter_append]
  rw [strip_append (fun x hx => ha x (List.mem_of_mem_filter hx))
    (fun x hx => hb x (List.mem_of_mem_filter hx))]

lemma strip_map (q : β → Bool) (f : α → β) (l : List α) : strip q (l.map f) = (strip (q ∘ f) l).map f := by
  rw [strip, List.dropWhile_map, List.rdropWhile, ← List.map_reverse, List.dropWhile_map, ← List.map_reverse]
  rfl

lemma filterMap_strip {f : α → Option β} (h : ∀ x, p x = true → f x = none) :
    (strip p l).filterMap f = l.filterMap f := by
  obtain ⟨a, b, hl, ha, hb⟩ := exists_edges p l
  have hnone : ∀ s : List α, (∀ x ∈ s, p x = true) → s.filterMap f = [] := fun s hs =>
    List.filterMap_eq_nil_iff.mpr fun x hx => h x (hs x hx)
  conv_rhs => rw [hl, List.filterMap_append, List.filterMap_append, hnone a ha, hnone b hb]
  simp

lemma filter_strip {k : α → Bool} (h : ∀ x, p x = true → k x = false) : (strip p l).filter k = l.filter k := by
  rw [← List.filterMap_eq_filter]
  apply filterMap_strip
  intro x hx
  simp [Option.guard, h x hx]

end Marginalia.Ends
