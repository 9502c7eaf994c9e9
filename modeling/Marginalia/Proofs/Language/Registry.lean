import Marginalia.Language.Registry
import Marginalia.Lists
import Mathlib.Data.List.TakeWhile
import Mathlib.Tactic.Lemma

/-! Look-ups in the registry: which extensions and paths have a language, and that what is found is the
language registered last. -/

namespace Marginalia

lemma Path.dropWhile_of_extension? {path extension : Text} (h : extension? path = some extension) :
    extension.dropWhile (· = '.') = extension := by
  obtain ⟨name, -, h⟩ := Option.bind_eq_some_iff.mp h
  simp only [nameExtension?, Option.ite_none_right_eq_some, Option.some.injEq] at h
  obtain _ | ⟨c, cs⟩ := extension
  · rfl
  have hc : c ∈ name.reverse.takeWhile (· ≠ '.') := by
    rw [← List.mem_reverse, h.2]
    exact List.mem_cons_self
  exact List.dropWhile_cons_of_neg (by simpa using List.mem_takeWhile_imp hc)

namespace Registry

variable {r : Registry} {language : Language} {languages : List Language} {extension path : Text}

lemma isSome_lookup_iff : (r.entries.lookup extension).isSome = true ↔ extension ∈ r.extensions := by
  simp [Registry.extensions, List.lookup_isSome_iff]

lemma forPath?_eq (r : Registry) (path : Text) :
    r.forPath? path = (Path.extension? path).bind fun extension => r.entries.lookup extension := by
  rw [forPath?]
  apply Option.bind_congr
  intro extension h
  rw [byExtension?, Path.dropWhile_of_extension? h]

lemma supports_iff : r.supports path = true ↔ ∃ extension ∈ r.extensions, Path.extension? path = some extension := by
  rw [supports, forPath?_eq]
  cases he : Path.extension? path with
  | none => simp
  | some e =>
    rw [Option.bind_some, isSome_lookup_iff]
    simp

lemma byExtension?_dots (r : Registry) (n : Nat) (extension : Text) :
    r.byExtension? (List.replicate n '.' ++ extension) = r.byExtension? extension := by
  rw [byExtension?, List.dropWhile_append_of_pos (by simp), byExtension?]

lemma lookup_enter (r : Registry) (entered : Text) (language : Language) (extension : Text) :
    (r.enter entered language).entries.lookup extension =
      if extension = entered then some language else r.entries.lookup extension := by
  rw [enter, List.lookup_cons]
  by_cases h : extension = entered
  · rw [h, beq_self_eq_true, if_pos rfl]
  · rw [beq_eq_false_iff_ne.mpr h, if_neg h]
    exact lookup_filter_ne h r.entries

lemma lookup_register (r : Registry) (language : Language) (extension : Text) :
    (r.register language).entries.lookup extension =
      if extension ∈ language.extensions then some language else r.entries.lookup extension := by
  rw [register]
  generalize language.extensions = declared
  induction declared generalizing r with
  | nil => simp
  | cons entered declared ih =>
    rw [List.foldl_cons, ih, lookup_enter]
    by_cases hd : extension ∈ declared
    · simp [hd]
    · simp [hd]

def latest? (languages : List Language) (extension : Text) : Option Language :=
  (languages.filter fun language => extension ∈ language.extensions).getLast?

lemma latest?_cons (language : Language) (languages : List Language) (extension : Text) :
    latest? (language :: languages) extension =
      (latest? languages extension).or (if extension ∈ language.extensions then some language else none) := by
  rw [latest?, latest?, List.filter_cons]
  split
  · next h =>
    rw [List.getLast?_cons, if_pos (of_decide_eq_true h)]
    cases (languages.filter fun l => extension ∈ l.extensions).getLast? <;> rfl
  · next h => rw [if_neg (by simpa using h), Option.or_none]

lemma lookup_foldl_register (r : Registry) (languages : List Language) (extension : Text) :
    (languages.foldl register r).entries.lookup extension =
      (latest? languages extension).or (r.entries.lookup extension) := by
  induction languages generalizing r with
  | nil => rfl
  | cons language languages ih =>
    rw [List.foldl_cons, ih, lookup_register, latest?_cons, Option.or_assoc]
    split <;> rfl

lemma mem_of_latest? (h : latest? languages extension = some language) : language ∈ languages :=
  (List.mem_filter.mp (List.mem_of_getLast? h)).1

def dialects : List Language := Source.Dialect.all.map .ofDialect

lemma standard_eq_foldl : standard = dialects.foldl register {} := by
  rw [standard, dialects, List.foldl_map]

lemma lookup_foldl_register_empty (languages : List Language) (extension : Text) :
    (languages.foldl register {}).entries.lookup extension = latest? languages extension := by
  rw [lookup_foldl_register]
  exact Option.or_none

lemma exists_dialect_of_byExtension? (h : standard.byExtension? extension = some language) :
    ∃ d, language = .ofDialect d := by
  rw [byExtension?, standard_eq_foldl, lookup_foldl_register_empty] at h
  obtain ⟨d, -, hd⟩ := List.mem_map.mp (mem_of_latest? h)
  exact ⟨d, hd.symm⟩

end Registry

end Marginalia
