import Marginalia.Comment.Assemble
import Marginalia.Proofs.Comment.LineEnds

/-! Bodies that differ in their line ends only. A comment depends on its body through the lines alone, so it makes no
difference which of the line feeds have a return before them. -/

namespace Marginalia

namespace Text

/-- The second text is the first with a return put before some of its line feeds, or all, or none. -/
inductive Respelled : Text → Text → Prop where
  | nil : Respelled [] []
  | same (c : Char) {s t : Text} : Respelled s t → Respelled (c :: s) (c :: t)
  | returned {s t : Text} : Respelled s t → Respelled ('\n' :: s) ('\r' :: '\n' :: t)

namespace Respelled

variable {s t : Text}

lemma refl (t : Text) : Respelled t t := by
  induction t with
  | nil => exact .nil
  | cons c t ih => exact .same c ih

lemma getLast?_eq (h : Respelled s t) : t.getLast? = s.getLast? := by
  induction h with
  | nil => rfl
  | same c _ ih => rw [List.getLast?_cons, List.getLast?_cons, ih]
  | returned _ ih => rw [List.getLast?_cons_cons, List.getLast?_cons, List.getLast?_cons, ih]

lemma unifyLineEnds_eq (h : Respelled s t) (hs : '\r' ∉ s) : unifyLineEnds t = s := by
  induction h with
  | nil => rfl
  | same c _ ih =>
    rw [List.mem_cons, not_or] at hs
    rw [unifyLineEnds.eq_2 _ _ fun _ hc _ => hs.1 hc.symm, ih hs.2]
  | returned _ ih =>
    rw [List.mem_cons, not_or] at hs
    rw [unifyLineEnds, ih hs.2]

lemma dropFinal_eq (h : Respelled s t) (hs : '\r' ∉ s) : dropFinal '\r' t = t := by
  rw [dropFinal_eq_self_iff, h.getLast?_eq]
  exact fun hlast => hs (List.mem_of_getLast? hlast)

end Respelled

end Text

namespace Body

lemma split_of_respelled {v w : Text} (h : v.Respelled w) (hv : '\r' ∉ v) : split w = v.splitOn '\n' := by
  rw [split_eq_splitOn_unifyLineEnds, h.dropFinal_eq hv, h.unifyLineEnds_eq hv]

section SameLines

variable {v w : Text} (h : split w = split v)

include h

lemma isDocBlock_congr : isDocBlock w = isDocBlock v := by
  rw [isDocBlock, isDocBlock, h]

lemma stripsMarkers_congr : stripsMarkers w = stripsMarkers v := by
  rw [stripsMarkers, stripsMarkers, isDocBlock_congr h, hasStarMargin, hasStarMargin, h]

lemma normalize_congr (strip : Bool) (trim : TrimPolicy) : normalize w strip trim = normalize v strip trim := by
  rw [normalize, normalize, h]

end SameLines

end Body

namespace RawComment

lemma assemble_congr (raw : RawComment) (settings : Settings) {w : Text}
    (h : Body.split w = Body.split raw.value) :
    ({ raw with value := w } : RawComment).assemble settings = raw.assemble settings := by
  simp only [assemble, Body.isDocBlock_congr h, Body.stripsMarkers_congr h, Body.normalize_congr h]

theorem assemble_respelled (raw : RawComment) (settings : Settings) (respelled : Text) (hv : '\r' ∉ raw.value)
    (h : raw.value.Respelled respelled) :
    Body.split respelled = raw.value.splitOn '\n' ∧
      Body.stripsMarkers respelled = Body.stripsMarkers raw.value ∧
      ({ raw with value := respelled } : RawComment).assemble settings = raw.assemble settings := by
  have hrespelled := Body.split_of_respelled h hv
  have hsplit : Body.split respelled = Body.split raw.value := by
    rw [hrespelled, Body.split_of_respelled (.refl _) hv]
  exact ⟨hrespelled, Body.stripsMarkers_congr hsplit, raw.assemble_congr settings hsplit⟩

theorem assemble_respelled_mixed :
    let raw : RawComment := ⟨Text.lit "*\n * A  \n * @x 1\n ", 1, 4, none⟩
    let mixed := Text.lit "*\r\n * A  \n * @x 1\r\n "
    '\r' ∉ raw.value ∧ raw.value.Respelled mixed ∧
      Body.split mixed = raw.value.splitOn '\n' ∧
      Body.stripsMarkers mixed = Body.stripsMarkers raw.value ∧
      ({ raw with value := mixed } : RawComment).assemble ⟨false, true, true, .untouched⟩ =
        raw.assemble ⟨false, true, true, .untouched⟩ := by
  intro raw mixed
  have hv : '\r' ∉ raw.value := by decide
  have h : raw.value.Respelled mixed := by repeat constructor
  exact ⟨hv, h, assemble_respelled raw _ mixed hv h⟩

end RawComment

end Marginalia
