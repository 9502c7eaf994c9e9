import Marginalia.Comment.Options
import Marginalia.Proofs.Text.Ends

/-! Trimming: what is kept is a stretch of the text, trimming it again changes nothing, and a text is blank exactly
if it is blank after trimming. -/

namespace Marginalia.Text

open Ends

variable {t : Text} {c : Char}

@[simp] lemma trim_trim : trim (trim t) = trim t := strip_strip

@[simp] lemma trimEnd_trimEnd : trimEnd (trimEnd t) = trimEnd t := List.rdropWhile_idempotent isSpace t

lemma mem_of_mem_trim (h : c ∈ trim t) : c ∈ t := mem_of_mem_strip h

lemma mem_of_mem_trimEnd (h : c ∈ trimEnd t) : c ∈ t := (List.rdropWhile_prefix isSpace t).subset h

lemma trim_eq_self_iff :
    trim t = t ↔ (∀ c ∈ t.head?, isSpace c = false) ∧ ∀ c ∈ t.getLast?, isSpace c = false :=
  strip_eq_self_iff

lemma trim_cons_space (h : isSpace c = true) : trim (c :: t) = trim t := by
  simp [trim, trimStart, h]

lemma not_isBlank_of_mem (h : c ∈ t) (hc : isSpace c = false) : isBlank t = false := by
  rw [isBlank, List.all_eq_false]
  exact ⟨c, h, by simp [hc]⟩

lemma isBlank_cons_at : isBlank ('@' :: t) = false := not_isBlank_of_mem List.mem_cons_self (by decide)

lemma isBlank_iff : isBlank t = true ↔ ∀ c ∈ t, isSpace c = true := List.all_eq_true

lemma isBlank_of_subset {s : Text} (hs : s ⊆ t) (h : isBlank t = true) : isBlank s = true :=
  isBlank_iff.mpr fun c hc => isBlank_iff.mp h c (hs hc)

lemma isBlank_append (s t : Text) : isBlank (s ++ t) = (isBlank s && isBlank t) := List.all_append

lemma isBlank_concat (h : isSpace c = true) : isBlank (t ++ [c]) = isBlank t := by
  simp [isBlank, h]

lemma exists_trimEnd_append (t : Text) : ∃ space, t = trimEnd t ++ space ∧ isBlank space = true :=
  ⟨t.rtakeWhile isSpace, List.rdropWhile_append_rtakeWhile.symm,
    isBlank_iff.mpr fun _ hc => List.mem_rtakeWhile_imp hc⟩

@[simp] lemma isBlank_trimEnd (t : Text) : isBlank (trimEnd t) = isBlank t := by
  obtain ⟨space, ht, hs⟩ := exists_trimEnd_append t
  conv_rhs => rw [ht, isBlank_append, hs, Bool.and_true]

@[simp] lemma isBlank_trim (t : Text) : isBlank (trim t) = isBlank t := by
  obtain ⟨a, b, ht, ha, hb⟩ := exists_edges isSpace t
  conv_rhs => rw [ht, isBlank_append, isBlank_append, isBlank_iff.mpr ha, isBlank_iff.mpr hb,
    Bool.true_and, Bool.and_true]
  rfl

lemma trim_of_isBlank (h : isBlank t = true) : trim t = [] := strip_eq_nil_iff.mpr (isBlank_iff.mp h)

lemma trim_of_head (h : ∀ c ∈ t.head?, isSpace c = false) : trim t = trimEnd t := by
  cases t with
  | nil => rfl
  | cons c t => simp [trim, trimStart, h c (by simp)]

section TrailingSpace

variable {space : Text} (hs : isBlank space = true)

include hs

lemma trim_append_space (t : Text) : trim (t ++ space) = trim t :=
  strip_append (a := []) (by simp) (isBlank_iff.mp hs)

lemma trim_takeWhile_append_space (p : Char → Bool) (t : Text) :
    trim ((t ++ space).takeWhile p) = trim (t.takeWhile p) := by
  rw [List.takeWhile_append]
  split
  · next h =>
    have hall : t.takeWhile p = t := (List.takeWhile_prefix p).eq_of_length h
    rw [hall, trim_append_space]
    exact isBlank_of_subset (List.takeWhile_prefix p).subset hs
  · rfl

lemma trim_dropWhile_append_space (p : Char → Bool) (t : Text) :
    trim ((t ++ space).dropWhile p) = trim (t.dropWhile p) := by
  rw [List.dropWhile_append]
  split
  · next h =>
    rw [List.isEmpty_iff.mp h]
    exact trim_of_isBlank (isBlank_of_subset (List.dropWhile_suffix p).subset hs)
  · exact trim_append_space hs _

end TrailingSpace

end Marginalia.Text

namespace Marginalia.TrimPolicy

variable (policy : TrimPolicy) {t : Text} {c : Char}

@[simp] lemma apply_apply : policy.apply (policy.apply t) = policy.apply t := by
  cases policy with
  | full => exact Text.trim_trim
  | rightOnly => exact Text.trimEnd_trimEnd
  | untouched => rfl

lemma mem_of_mem_apply (h : c ∈ policy.apply t) : c ∈ t := by
  cases policy with
  | full => exact Text.mem_of_mem_trim h
  | rightOnly => exact Text.mem_of_mem_trimEnd h
  | untouched => exact h

@[simp] lemma isBlank_apply (t : Text) : Text.isBlank (policy.apply t) = Text.isBlank t := by
  cases policy with
  | full => exact Text.isBlank_trim t
  | rightOnly => exact Text.isBlank_trimEnd t
  | untouched => rfl

variable {policy} in
lemma apply_concat (h : policy ≠ .untouched) (hc : Text.isSpace c = true) :
    policy.apply (t ++ [c]) = policy.apply t := by
  cases policy with
  | full => exact Ends.strip_concat_of_pos hc
  | rightOnly => exact List.rdropWhile_concat_pos Text.isSpace t c hc
  | untouched => exact absurd rfl h

end Marginalia.TrimPolicy
