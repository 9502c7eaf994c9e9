/-! Facts about lists, and about lists of pairs that are looked up by the first of them. -/

namespace Marginalia

variable {α β : Type}

theorem mem_of_lookup [BEq α] [LawfulBEq α] {a : α} {b : β} {l : List (α × β)} (h : l.lookup a = some b) :
    (a, b) ∈ l := by
  induction l with
  | nil => simp at h
  | cons x l ih =>
    obtain ⟨k, v⟩ := x
    rw [List.lookup_cons] at h
    split at h
    · simp_all
    · exact List.mem_cons_of_mem _ (ih h)

theorem lookup_filter_ne [BEq α] [LawfulBEq α] [DecidableEq α] {a b : α} (h : b ≠ a) (l : List (α × β)) :
    (l.filter fun entry => entry.1 ≠ a).lookup b = l.lookup b := by
  induction l with
  | nil => rfl
  | cons entry l ih =>
    obtain ⟨k, v⟩ := entry
    by_cases hk : k = a
    · have hb : (b == k) = false := beq_eq_false_iff_ne.mpr (hk ▸ h)
      rw [List.filter_cons_of_neg (by simpa using hk), ih, List.lookup_cons, hb]
    · rw [List.filter_cons_of_pos (by simpa using hk), List.lookup_cons, List.lookup_cons, ih]

theorem countP_lt_of_mem {p q : α → Bool} {l : List α} {a : α} (hpq : ∀ x, p x = true → q x = true)
    (ha : a ∈ l) (hp : p a = false) (hq : q a = true) : l.countP p < l.countP q := by
  induction l with
  | nil => simp at ha
  | cons b l ih =>
    have hle : l.countP p ≤ l.countP q := List.countP_mono_left fun x _ => hpq x
    simp only [List.countP_cons]
    rcases List.mem_cons.1 ha with rfl | ha
    · simp only [hp, hq]
      grind
    · have := ih ha
      have := hpq b
      grind

end Marginalia
