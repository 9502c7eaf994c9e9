import Marginalia.Comment.Edges
import Marginalia.Proofs.Text.Ends

/-! Both ways to drop the blank edges of a list of lines strip it at both ends, and neither reads past them. -/

namespace Marginalia.Edges

open Ends

lemma findIdx?_block {α : Type} {q : α → Bool} {x : α} {a s : List α} (ha : ∀ y ∈ a, q y = false)
    (hx : q x = true) : (a ++ x :: s).findIdx? q = some a.length := by
  rw [List.findIdx?_append, List.findIdx?_eq_none_iff.mpr ha, List.findIdx?_cons, if_pos hx]
  simp

lemma firstSolid?_eq_none_iff {lines : List Text} :
    firstSolid? lines = none ↔ ∀ l ∈ lines, Text.isBlank l := by
  simp [firstSolid?, List.findIdx?_eq_none_iff]

lemma firstSolid?_block {a s : List Text} {l : Text} (ha : ∀ y ∈ a, Text.isBlank y)
    (hl : Text.isBlank l = false) : firstSolid? (a ++ l :: s) = some a.length :=
  findIdx?_block (by simpa using ha) (by simp [hl])

lemma lastSolid?_block {s b : List Text} {l : Text} (hl : Text.isBlank l = false)
    (hb : ∀ y ∈ b, Text.isBlank y) : lastSolid? (s ++ l :: b) = some s.length := by
  have hr : (s ++ l :: b).reverse = b.reverse ++ l :: s.reverse := by simp
  rw [lastSolid?, hr, findIdx?_block (by simpa using hb) (by simp [hl])]
  simp

lemma solid?_block {a s b : List Text} (hn : s ≠ []) (ha : ∀ y ∈ a, Text.isBlank y)
    (hb : ∀ y ∈ b, Text.isBlank y) (hhead : ∀ y ∈ s.head?, Text.isBlank y = false)
    (hlast : ∀ y ∈ s.getLast?, Text.isBlank y = false) :
    firstSolid? (a ++ s ++ b) = some a.length ∧
      ∃ last, lastSolid? (a ++ s ++ b) = some last ∧ last + 1 = (a ++ s).length := by
  constructor
  · obtain ⟨x, r, hx⟩ := List.exists_cons_of_ne_nil hn
    rw [hx, List.append_assoc]
    exact firstSolid?_block ha (hhead x (by simp [hx]))
  · obtain ⟨r, y, hy⟩ := (List.eq_nil_or_concat' s).resolve_left hn
    refine ⟨(a ++ r).length, ?_, ?_⟩
    · rw [hy, ← List.append_assoc, List.append_assoc]
      exact lastSolid?_block (hlast y (by simp [hy])) hb
    · simp only [hy, List.length_append, List.length_singleton]
      omega

lemma cut_eq_strip (lines : List Text) : cut lines = strip Text.isBlank lines := by
  obtain ⟨a, b, hl, ha, hb⟩ := exists_edges Text.isBlank lines
  by_cases hs : strip Text.isBlank lines = []
  · rw [cut, firstSolid?_eq_none_iff.mpr (strip_eq_nil_iff.mp hs), hs]
  · obtain ⟨hf, last, hlast, hlen⟩ := solid?_block hs ha hb (fun _ => head_strip) (fun _ => last_strip)
    rw [← hl] at hf hlast
    have htake : lines.take (last + 1) = a ++ strip Text.isBlank lines := by
      rw [hlen, ← List.prefix_iff_eq_take.mp ⟨b, hl.symm⟩]
    simp only [cut, hf, hlast, Option.getD_some, htake, List.drop_left]

lemma window_eq_cut (lines : List Text) : window lines = cut lines := by
  rw [window, cut]
  cases firstSolid? lines with
  | none => rfl
  | some first => exact List.drop_take.symm

lemma solid_bounds {lines : List Text} {first : Nat} (h : firstSolid? lines = some first) :
    ∃ last, lastSolid? lines = some last ∧ first ≤ last ∧ last < lines.length := by
  obtain ⟨a, b, hl, ha, hb⟩ := exists_edges Text.isBlank lines
  have hs : strip Text.isBlank lines ≠ [] := by
    intro hs
    rw [firstSolid?_eq_none_iff.mpr (strip_eq_nil_iff.mp hs)] at h
    cases h
  obtain ⟨hf, last, hlast, hlen⟩ := solid?_block hs ha hb (fun _ => head_strip) (fun _ => last_strip)
  rw [← hl] at hf hlast
  obtain rfl : first = a.length := Option.some.inj (h.symm.trans hf)
  have hpos := List.length_pos_of_ne_nil hs
  have htotal := congrArg List.length hl
  simp only [List.length_append] at hlen htotal
  exact ⟨last, hlast, by omega, by omega⟩

structure Trims (trim : List Text → List Text) : Prop where
  dropped : ∀ lines, trim lines = (lines.dropWhile Text.isBlank).rdropWhile Text.isBlank
  stretch : ∀ lines, ∃ front back, lines = front ++ trim lines ++ back ∧
    (∀ l ∈ front, Text.isBlank l) ∧ ∀ l ∈ back, Text.isBlank l
  solid_kept : ∀ lines, ((trim lines).filter fun l => !Text.isBlank l) = lines.filter fun l => !Text.isBlank l
  eq_nil_iff : ∀ lines, trim lines = [] ↔ ∀ l ∈ lines, Text.isBlank l
  again : ∀ lines, trim (trim lines) = trim lines
  reversed : ∀ lines, trim lines.reverse = (trim lines).reverse

lemma trims_strip : Trims (strip Text.isBlank) where
  dropped lines := rfl
  stretch := exists_edges Text.isBlank
  solid_kept lines := filter_strip fun l hl => by rw [hl, Bool.not_true]
  eq_nil_iff lines := strip_eq_nil_iff
  again lines := strip_strip
  reversed lines := strip_reverse

theorem edges_trimmed :
    (∀ lines, window lines = cut lines) ∧ Trims window ∧ Trims cut ∧
      ∀ lines first, firstSolid? lines = some first →
        ∃ last, lastSolid? lines = some last ∧ first ≤ last ∧ last < lines.length ∧
          first ≤ (lines.take (last + 1)).length := by
  have hcut : cut = strip Text.isBlank := funext cut_eq_strip
  have hwindow : window = cut := funext window_eq_cut
  refine ⟨window_eq_cut, ?_, ?_, ?_⟩
  · rw [hwindow, hcut]
    exact trims_strip
  · rw [hcut]
    exact trims_strip
  · intro lines first h
    obtain ⟨last, hlast, hle, hlt⟩ := solid_bounds h
    refine ⟨last, hlast, hle, hlt, ?_⟩
    rw [List.length_take]
    omega

theorem edges_trimmed_sample :
    let lines := [Text.lit " ", Text.lit "a", [], Text.lit " b", Text.lit "\t"]
    firstSolid? lines = some 1 ∧ window lines = cut lines ∧ cut lines = [Text.lit "a", [], Text.lit " b"] ∧
      cut (cut lines) = cut lines ∧ window lines.reverse = (window lines).reverse ∧
      ∃ last, lastSolid? lines = some last ∧ 1 ≤ last ∧ last < 5 ∧ 1 ≤ (lines.take (last + 1)).length := by
  intro lines
  obtain ⟨hsame, hwindow, hcut, hbounds⟩ := edges_trimmed
  have hfirst : firstSolid? lines = some 1 := by decide
  exact ⟨hfirst, hsame lines, by decide, hcut.again lines, hwindow.reversed lines, hbounds lines 1 hfirst⟩

end Marginalia.Edges
