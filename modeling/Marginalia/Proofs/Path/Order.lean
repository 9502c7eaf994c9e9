import Marginalia.Path.Sorted
import Mathlib.Tactic.Lemma

/-! The order of paths is total, up to paths with the same components, and sorting gives the one
strictly increasing list of the components of its paths. -/

namespace Marginalia.Path

namespace Component

variable {c d e : Component}

@[simp] lemma before_irrefl (c : Component) : c.before c = false := by
  cases c with
  | name n => exact decide_eq_false (List.lt_irrefl n)
  | _ => rfl

lemma before_trans (h : c.before d = true) (h' : d.before e = true) : c.before e = true := by
  cases c <;> cases d <;> cases e <;> simp_all [before, rank]
  exact List.lt_trans h h'

lemma before_trichotomy (c d : Component) : c.before d = true ∨ c = d ∨ d.before c = true := by
  cases c <;> cases d <;> simp [before, rank]
  rename_i m n
  by_cases hm : m < n
  · exact .inl hm
  · by_cases hn : n < m
    · exact .inr (.inr hn)
    · exact .inr (.inl (List.le_antisymm (List.not_lt.mp hn) (List.not_lt.mp hm)))

end Component

open Component

lemma componentsLe_cons {c d : Component} {cs ds : List Component} :
    componentsLe (c :: cs) (d :: ds) = true ↔ c.before d = true ∨ c = d ∧ componentsLe cs ds = true := by
  simp [componentsLe]

lemma componentsLe_trans {cs ds es : List Component} (h : componentsLe cs ds = true)
    (h' : componentsLe ds es = true) : componentsLe cs es = true := by
  induction cs generalizing ds es with
  | nil => rfl
  | cons c cs ih =>
    obtain _ | ⟨d, ds⟩ := ds
    · simp [componentsLe] at h
    obtain _ | ⟨e, es⟩ := es
    · simp [componentsLe] at h'
    rw [componentsLe_cons] at h h' ⊢
    rcases h with h | ⟨rfl, h⟩
    · rcases h' with h' | ⟨rfl, -⟩
      · exact .inl (before_trans h h')
      · exact .inl h
    · rcases h' with h' | ⟨rfl, h'⟩
      · exact .inl h'
      · exact .inr ⟨rfl, ih h h'⟩

lemma componentsLe_total (cs ds : List Component) :
    componentsLe cs ds = true ∨ componentsLe ds cs = true := by
  induction cs generalizing ds with
  | nil => exact .inl rfl
  | cons c cs ih =>
    obtain _ | ⟨d, ds⟩ := ds
    · exact .inr rfl
    rw [componentsLe_cons, componentsLe_cons]
    rcases before_trichotomy c d with h | rfl | h
    · exact .inl (.inl h)
    · rcases ih ds with h | h
      · exact .inl (.inr ⟨rfl, h⟩)
      · exact .inr (.inr ⟨rfl, h⟩)
    · exact .inr (.inl h)

lemma componentsLe_antisymm {cs ds : List Component} (h : componentsLe cs ds = true)
    (h' : componentsLe ds cs = true) : cs = ds := by
  induction cs generalizing ds with
  | nil =>
    obtain _ | ⟨d, ds⟩ := ds
    · rfl
    · simp [componentsLe] at h'
  | cons c cs ih =>
    obtain _ | ⟨d, ds⟩ := ds
    · simp [componentsLe] at h
    rw [componentsLe_cons] at h h'
    rcases h with h | ⟨rfl, h⟩
    · have : ¬c.before c = true := by simp
      rcases h' with h' | ⟨rfl, -⟩
      · exact absurd (before_trans h h') this
      · exact absurd h this
    · have h' : componentsLe ds cs = true := by simpa using h'
      rw [ih h h']

lemma same_iff {p q : Text} : same p q = true ↔ components p = components q := by
  simp [same]

def Precedes (p q : Text) : Prop := le p q = true ∧ ¬same p q = true

lemma distinctAfter_pairwise {last : Text} {ps : List Text}
    (h : (last :: ps).Pairwise fun p q => le p q = true) :
    (last :: distinctAfter last ps).Pairwise Precedes := by
  induction ps generalizing last with
  | nil => simp [distinctAfter]
  | cons p ps ih =>
    rw [List.pairwise_cons, List.pairwise_cons] at h
    obtain ⟨hl, hp, hps⟩ := h
    rw [distinctAfter]
    split
    case isTrue hs =>
      exact ih (List.pairwise_cons.mpr ⟨fun q hq => hl q (List.mem_cons_of_mem p hq), hps⟩)
    case isFalse hs =>
      have hle := hl p List.mem_cons_self
      have hrest := ih (List.pairwise_cons.mpr ⟨hp, hps⟩)
      refine List.pairwise_cons.mpr ⟨?_, hrest⟩
      intro q hq
      rcases List.mem_cons.mp hq with rfl | hq
      · exact ⟨hle, hs⟩
      · have hpq : Precedes p q := (List.pairwise_cons.mp hrest).1 q hq
        refine ⟨componentsLe_trans hle hpq.1, ?_⟩
        intro h
        have hback : le q p = true := by
          rw [le, ← same_iff.mp h]
          exact hle
        exact hpq.2 (same_iff.mpr (componentsLe_antisymm hpq.1 hback))

lemma mem_components_distinctAfter {last : Text} {ps : List Text} {cs : List Component} :
    cs ∈ (last :: distinctAfter last ps).map components ↔ cs ∈ (last :: ps).map components := by
  induction ps generalizing last with
  | nil => rfl
  | cons p ps ih =>
    rw [distinctAfter]
    split
    case isTrue hs =>
      rw [ih, List.map_cons, List.map_cons, List.map_cons, ← same_iff.mp hs]
      simp
    case isFalse hs =>
      rw [List.map_cons, List.mem_cons, ih, ← List.mem_cons, ← List.map_cons]

lemma distinct_pairwise {ps : List Text} (h : ps.Pairwise fun p q => le p q = true) :
    (distinct ps).Pairwise Precedes := by
  cases ps with
  | nil => exact .nil
  | cons p ps => exact distinctAfter_pairwise h

lemma mem_components_distinct {ps : List Text} {cs : List Component} :
    cs ∈ (distinct ps).map components ↔ cs ∈ ps.map components := by
  cases ps with
  | nil => rfl
  | cons p ps => exact mem_components_distinctAfter

theorem sorted_pairwise (ps : List Text) : (sorted ps).Pairwise Precedes := by
  apply distinct_pairwise
  refine List.pairwise_mergeSort ?_ ?_ ps
  · intro p q r
    exact componentsLe_trans
  · intro p q
    rw [Bool.or_eq_true]
    exact componentsLe_total (components p) (components q)

theorem mem_components_sorted {ps : List Text} {cs : List Component} :
    cs ∈ (sorted ps).map components ↔ cs ∈ ps.map components := by
  rw [sorted, mem_components_distinct]
  simp only [List.mem_map, List.mem_mergeSort]

lemma distinctAfter_sublist (last : Text) (ps : List Text) : (distinctAfter last ps).Sublist ps := by
  induction ps generalizing last with
  | nil => exact .slnil
  | cons p ps ih =>
    rw [distinctAfter]
    split
    · exact (ih last).cons p
    · exact (ih p).cons_cons p

lemma mem_of_mem_sorted {p : Text} {ps : List Text} (h : p ∈ sorted ps) : p ∈ ps := by
  have hd : (sorted ps).Sublist (ps.mergeSort le) := by
    unfold sorted
    cases ps.mergeSort le with
    | nil => exact .slnil
    | cons q qs => exact (distinctAfter_sublist q qs).cons_cons q
  exact List.mem_mergeSort.mp (hd.mem h)

lemma sorted_singleton (path : Text) : sorted [path] = [path] := by
  rw [sorted, List.mergeSort_singleton]
  rfl

lemma exists_same_iff {ps : List Text} {p : Text} :
    (∃ q ∈ ps, same q p = true) ↔ components p ∈ ps.map components := by
  simp only [same_iff, List.mem_map]

theorem components_sorted_congr {ps qs : List Text}
    (h : ∀ cs, cs ∈ ps.map components ↔ cs ∈ qs.map components) :
    (sorted ps).map components = (sorted qs).map components := by
  have hlt (l : List Text) :
      ((sorted l).map components).Pairwise fun cs ds => componentsLe cs ds = true ∧ cs ≠ ds := by
    rw [List.pairwise_map]
    refine (sorted_pairwise l).imp ?_
    rintro p q ⟨hle, hs⟩
    exact ⟨hle, fun h => hs (same_iff.mpr h)⟩
  have hperm : ((sorted ps).map components).Perm ((sorted qs).map components) := by
    rw [List.perm_ext_iff_of_nodup ((hlt ps).imp And.right) ((hlt qs).imp And.right)]
    intro cs
    rw [mem_components_sorted, mem_components_sorted, h]
  refine hperm.eq_of_pairwise ?_ ((hlt ps).imp And.left) ((hlt qs).imp And.left)
  intro cs ds _ _
  exact componentsLe_antisymm

end Marginalia.Path
