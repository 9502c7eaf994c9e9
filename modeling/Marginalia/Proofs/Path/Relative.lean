import Marginalia.Proofs.Path.Join
import Marginalia.Proofs.Text.Ends

/-! Paths seen from a base. What is left of a path below the base says all of it but the base, so two paths that
lie below the base or start at the root look the same from it only if they have the same components. -/

namespace Marginalia.Path

variable {base path p q : Text} {pieces : List Text}

lemma inner_skip (n : Nat) (pieces : List Text) : inner (skip n pieces) = (inner pieces).drop n := by
  fun_induction skip n pieces with
  | case1 => rfl
  | case2 n => rfl
  | case3 n piece pieces hf ih => rw [ih, inner, inner, List.filter_cons_of_neg (by simp [hf])]
  | case4 n piece pieces hf ih => rw [ih, inner, inner, List.filter_cons_of_pos (by simp [hf]), List.map_cons,
      List.drop_succ_cons]

lemma skip_suffix (n : Nat) (pieces : List Text) : skip n pieces <:+ pieces := by
  fun_induction skip n pieces with
  | case1 => exact List.suffix_rfl
  | case2 n => exact List.suffix_rfl
  | case3 n piece pieces hf ih => exact ih.trans (List.suffix_cons piece pieces)
  | case4 n piece pieces hf ih => exact ih.trans (List.suffix_cons piece pieces)

lemma ofPieces_eq_intercalate (pieces : List Text) :
    ofPieces pieces = List.intercalate ['/'] (Ends.strip isFiller pieces) := rfl

lemma inner_strip (pieces : List Text) : inner (Ends.strip isFiller pieces) = inner pieces := by
  obtain ⟨a, b, h, ha, hb⟩ := Ends.exists_edges isFiller pieces
  conv_rhs => rw [h, inner_append, inner_append, inner_eq_nil_iff.mpr ha, inner_eq_nil_iff.mpr hb]
  simp

lemma inner_splitOn_ofPieces (h : ∀ piece ∈ pieces, '/' ∉ piece) :
    inner ((ofPieces pieces).splitOn '/') = inner pieces := by
  rw [ofPieces_eq_intercalate, ← inner_strip pieces]
  by_cases hs : Ends.strip isFiller pieces = []
  · rw [hs]
    rfl
  · rw [List.splitOn_intercalate '/' (fun piece hp => h piece (Ends.mem_of_mem_strip hp)) hs]

lemma isAbsolute_ofPieces (h : ∀ piece ∈ pieces, '/' ∉ piece) : isAbsolute (ofPieces pieces) = false := by
  rw [ofPieces_eq_intercalate]
  cases hs : Ends.strip isFiller pieces with
  | nil => rfl
  | cons first rest =>
    have hf : isFiller first = false := Ends.head_strip (p := isFiller) (l := pieces) (by simp [hs])
    have hslash : '/' ∉ first := h first (Ends.mem_of_mem_strip (by rw [hs]; exact List.mem_cons_self))
    obtain _ | ⟨c, first⟩ := first
    · simp [isFiller] at hf
    · rw [List.intercalate_cons_cons_left]
      have hc : c ≠ '/' := fun hc => hslash (hc ▸ List.mem_cons_self)
      simpa [isAbsolute] using hc

lemma dropLastFillers_isPrefix (pieces : List Text) : dropLastFillers pieces <+: pieces :=
  List.rdropWhile_prefix isFiller pieces

lemma inner_dropLastFillers (pieces : List Text) : inner (dropLastFillers pieces) = inner pieces := by
  have hsplit : dropLastFillers pieces ++ pieces.rtakeWhile isFiller = pieces := List.rdropWhile_append_rtakeWhile
  have hfillers : inner (pieces.rtakeWhile isFiller) = [] :=
    inner_eq_nil_iff.mpr fun _ => List.mem_rtakeWhile_imp
  conv_rhs => rw [← hsplit, inner_append, hfillers, List.append_nil]

lemma components_trimEnd (path : Text) : components (trimEnd path) = components path := by
  obtain _ | ⟨c, cs⟩ := path
  · rfl
  obtain ⟨first, rest, hs⟩ := List.exists_cons_of_ne_nil (List.splitOn_ne_nil '/' (c :: cs))
  have hfirst : isAbsolute (c :: cs) = true ↔ first = [] := isAbsolute_iff (List.cons_ne_nil c cs) hs
  rw [components_of_splitOn (List.cons_ne_nil c cs) hs, ← inner_dropLastFillers rest, trimEnd, hs]
  simp only [Bool.and_eq_true, hfirst, List.isEmpty_iff]
  split
  · next h =>
    rw [h.1, h.2]
    rfl
  · next h =>
    have hslash : ∀ piece ∈ first :: dropLastFillers rest, '/' ∉ piece := by
      intro piece hm
      apply Text.notMem_of_mem_splitOn (t := c :: cs) piece
      rw [hs]
      exact List.cons_subset_cons first (dropLastFillers_isPrefix rest).subset hm
    have hpieces := List.splitOn_intercalate '/' hslash (List.cons_ne_nil _ _)
    apply components_of_splitOn _ hpieces
    intro hn
    rw [hn] at hpieces
    obtain ⟨rfl, hk⟩ := List.cons.inj hpieces
    exact h ⟨rfl, hk.symm⟩

example : trimEnd (Text.lit "./src/./") = Text.lit "./src" ∧ trimEnd (Text.lit "//.") = Text.lit "/" := by decide

lemma relativeTo_eq_self (h : ¬components base <+: components path) : relativeTo base path = path := by
  rw [relativeTo, relativeTo?, if_neg (by rwa [List.isPrefixOf_iff_prefix])]
  rfl

lemma relativeTo_inside (hb : base ≠ []) (h : components base <+: components path) :
    isAbsolute (relativeTo base path) = false ∧
      components path = components base ++ inner ((relativeTo base path).splitOn '/') := by
  obtain ⟨first, front, hs⟩ := List.exists_cons_of_ne_nil (List.splitOn_ne_nil '/' base)
  have hbase : components base = .ofFirst first :: inner front := components_of_splitOn hb hs
  have hp : path ≠ [] := by
    rintro rfl
    rw [hbase] at h
    exact absurd h (by simp [components])
  obtain ⟨first', rest, hs'⟩ := List.exists_cons_of_ne_nil (List.splitOn_ne_nil '/' path)
  have hpath : components path = .ofFirst first' :: inner rest := components_of_splitOn hp hs'
  have hrelative : relativeTo base path = ofPieces (skip (inner front).length rest) := by
    rw [relativeTo, relativeTo?, if_pos (by rwa [List.isPrefixOf_iff_prefix]), hbase, hs']
    rfl
  have hslash : ∀ piece ∈ skip (inner front).length rest, '/' ∉ piece := by
    intro piece hm
    apply Text.notMem_of_mem_splitOn (t := path) piece
    rw [hs']
    exact List.mem_cons_of_mem _ ((skip_suffix _ rest).subset hm)
  rw [hrelative, inner_splitOn_ofPieces hslash, inner_skip]
  refine ⟨isAbsolute_ofPieces hslash, ?_⟩
  rw [hpath, hbase, List.cons_prefix_cons] at h
  rw [hpath, hbase, h.1, List.cons_append, List.prefix_iff_eq_append.mp h.2]

def SeenFrom (base path : Text) : Prop := isAbsolute path = true ∨ components base <+: components path

lemma SeenFrom.join (h : SeenFrom base path) (name : Text) : SeenFrom base (join path name) := by
  by_cases hn : isAbsolute name = true
  · rw [join_of_isAbsolute hn]
    exact .inl hn
  rw [Bool.not_eq_true] at hn
  by_cases hp : path = []
  · subst hp
    have hbase : components base = [] := List.prefix_nil.mp (h.resolve_left (by simp [isAbsolute]))
    right
    rw [hbase]
    exact List.nil_prefix
  · rcases h with h | h
    · left
      rw [isAbsolute_join hp hn, h]
    · right
      rw [components_join hp hn]
      exact h.trans (List.prefix_append _ _)

-- A path that is not below the base is absolute, and what is left of one below it is not.
lemma components_eq_of_relativeTo_eq (hp : SeenFrom base p) (hq : SeenFrom base q)
    (h : relativeTo base p = relativeTo base q) : components p = components q := by
  by_cases hb : base = []
  · subst hb
    have htrim (path : Text) : relativeTo [] path = trimEnd path := by simp [relativeTo, relativeTo?, components]
    rw [← components_trimEnd p, ← htrim, h, htrim, components_trimEnd]
  by_cases hbp : components base <+: components p
  · obtain ⟨hpa, hpc⟩ := relativeTo_inside hb hbp
    by_cases hbq : components base <+: components q
    · rw [hpc, (relativeTo_inside hb hbq).2, h]
    · rw [h, relativeTo_eq_self hbq, hq.resolve_right hbq] at hpa
      cases hpa
  · rw [relativeTo_eq_self hbp] at h
    by_cases hbq : components base <+: components q
    · have hqa := (relativeTo_inside hb hbq).1
      rw [← h, hp.resolve_right hbp] at hqa
      cases hqa
    · rw [h, relativeTo_eq_self hbq]

end Marginalia.Path
