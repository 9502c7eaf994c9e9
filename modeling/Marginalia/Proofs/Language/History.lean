import Marginalia.Proofs.Language.Registry
import Mathlib.Data.List.Nodup

/-! Registries with a history. After any registrations, what a registry answers is settled by the list of all
languages registered, the dialects first. Languages are entered under their extensions as declared, while leading
dots are dropped before a look-up. -/

namespace Marginalia.Registry

def registered (languages : List Language) : Registry := languages.foldl register standard

def history (languages : List Language) : List Language := dialects ++ languages

variable {languages : List Language} {r : Registry} {language : Language} {extension path : Text}

lemma registered_eq_foldl (languages : List Language) :
    registered languages = (history languages).foldl register {} := by
  rw [registered, standard_eq_foldl, history, List.foldl_append]

lemma latest?_eq_none_iff : latest? languages extension = none ↔ ∀ l ∈ languages, extension ∉ l.extensions := by
  simp [latest?]

lemma lookup_registered (languages : List Language) (extension : Text) :
    (registered languages).entries.lookup extension = latest? (history languages) extension := by
  rw [registered_eq_foldl, lookup_foldl_register_empty]

lemma mem_extensions_registered :
    extension ∈ (registered languages).extensions ↔ ∃ l ∈ history languages, extension ∈ l.extensions := by
  rw [← isSome_lookup_iff, lookup_registered, ← not_iff_not, Bool.not_eq_true, Option.isSome_eq_false_iff,
    Option.isNone_iff_eq_none, latest?_eq_none_iff]
  simp

lemma nodup_enter (h : r.extensions.Nodup) : (r.enter extension language).extensions.Nodup := by
  apply List.nodup_cons.mpr
  constructor
  · intro hm
    obtain ⟨entry, he, hx⟩ := List.mem_map.mp hm
    exact of_decide_eq_true (List.mem_filter.mp he).2 hx
  · exact h.sublist ((List.filter_sublist).map Prod.fst)

lemma nodup_register (h : r.extensions.Nodup) : (r.register language).extensions.Nodup := by
  rw [register]
  generalize language.extensions = declared
  induction declared generalizing r with
  | nil => exact h
  | cons extension declared ih => exact ih (nodup_enter h)

lemma nodup_foldl_register (h : r.extensions.Nodup) : (languages.foldl register r).extensions.Nodup := by
  induction languages generalizing r with
  | nil => exact h
  | cons language languages ih => exact ih (nodup_register h)

lemma nodup_registered (languages : List Language) : (registered languages).extensions.Nodup := by
  rw [registered_eq_foldl]
  exact nodup_foldl_register List.nodup_nil

lemma forPath_eq_ok_iff : r.forPath path = .ok language ↔ r.forPath? path = some language := by
  rw [forPath]
  cases r.forPath? path <;> simp

lemma forPath_eq_error_iff {error : LanguageError} :
    r.forPath path = .error error ↔
      r.forPath? path = none ∧ error = .unsupported ((Path.extension? path).getD []) := by
  rw [forPath]
  cases r.forPath? path with
  | none => simp [eq_comm]
  | some language => simp

lemma byExtension?_register (h : extension.dropWhile (· = '.') ∉ language.extensions) :
    (r.register language).byExtension? extension = r.byExtension? extension := by
  rw [byExtension?, lookup_register, if_neg h, byExtension?]

lemma forPath?_register (h : ∀ extension ∈ Path.extension? path, extension ∉ language.extensions) :
    (r.register language).forPath? path = r.forPath? path := by
  rw [forPath?_eq, forPath?_eq]
  apply Option.bind_congr
  intro extension he
  rw [lookup_register, if_neg (h extension he)]

structure Reflects (history : List Language) (r : Registry) : Prop where
  byExtension : ∀ extension, r.byExtension? extension = latest? history (extension.dropWhile (· = '.'))
  byPath : ∀ path, r.forPath? path = (Path.extension? path).bind r.byExtension?
  byPath_latest : ∀ path, r.forPath? path = (Path.extension? path).bind (latest? history)
  supports_iff : ∀ path, r.supports path = true ↔ ∃ language, r.forPath? path = some language
  forPath_ok : ∀ path language, r.forPath path = .ok language ↔ r.forPath? path = some language
  forPath_error : ∀ path error, r.forPath path = .error error ↔
    r.forPath? path = none ∧ error = .unsupported ((Path.extension? path).getD [])
  extensions_once : r.extensions.Nodup
  mem_extensions : ∀ extension, extension ∈ r.extensions ↔ ∃ l ∈ history, extension ∈ l.extensions
  other_extension : ∀ language extension, extension.dropWhile (· = '.') ∉ language.extensions →
    (r.register language).byExtension? extension = r.byExtension? extension
  other_path : ∀ language path, (∀ extension ∈ Path.extension? path, extension ∉ language.extensions) →
    (r.register language).forPath? path = r.forPath? path ∧
      (r.register language).supports path = r.supports path ∧
      (r.register language).forPath path = r.forPath path

theorem registered_reflects (languages : List Language) : Reflects (history languages) (registered languages) where
  byExtension extension := lookup_registered languages _
  byPath path := rfl
  byPath_latest path := by
    rw [forPath?_eq]
    exact Option.bind_congr fun extension _ => lookup_registered languages extension
  supports_iff path := Option.isSome_iff_exists
  forPath_ok path language := forPath_eq_ok_iff
  forPath_error path error := forPath_eq_error_iff
  extensions_once := nodup_registered languages
  mem_extensions extension := mem_extensions_registered
  other_extension language extension := byExtension?_register
  other_path language path h := by
    have hp := forPath?_register (r := registered languages) h
    exact ⟨hp, by rw [supports, hp, supports], by rw [forPath, hp, forPath]⟩

lemma dropWhile_dots_of_head (h : extension.head? ≠ some '.') : extension.dropWhile (· = '.') = extension := by
  cases extension with
  | nil => rfl
  | cons c cs => exact List.dropWhile_cons_of_neg (by simpa using h)

lemma head_dropWhile_dots (extension : Text) : (extension.dropWhile (· = '.')).head? ≠ some '.' := by
  intro h
  have hn := List.head?_dropWhile_not (· = '.') extension
  rw [h] at hn
  simp at hn

lemma found_iff : (∃ language, r.byExtension? extension = some language) ↔
    extension.dropWhile (· = '.') ∈ r.extensions := by
  rw [← Option.isSome_iff_exists, byExtension?, isSome_lookup_iff]

lemma reached_iff (h : extension ∈ (registered languages).extensions) :
    (∃ language, latest? (history languages) extension = some language ∧
        (registered languages).byExtension? extension = some language) ↔
      extension.head? ≠ some '.' ∨
        latest? (history languages) (extension.dropWhile (· = '.')) = latest? (history languages) extension := by
  rw [byExtension?, lookup_registered]
  obtain ⟨language, hl⟩ : ∃ language, latest? (history languages) extension = some language := by
    rw [← Option.isSome_iff_exists, ← lookup_registered, isSome_lookup_iff]
    exact h
  constructor
  · rintro ⟨found, hf, hd⟩
    exact .inr (hd.trans hf.symm)
  · rintro (hhead | hsame)
    · exact ⟨language, hl, by rw [dropWhile_dots_of_head hhead, hl]⟩
    · exact ⟨language, hl, by rw [hsame, hl]⟩

structure Reaches (history : List Language) (r : Registry) : Prop where
  found_iff : ∀ extension,
    (∃ language, r.byExtension? extension = some language) ↔ extension.dropWhile (· = '.') ∈ r.extensions
  reached_iff : ∀ extension ∈ r.extensions,
    (∃ language, latest? history extension = some language ∧ r.byExtension? extension = some language) ↔
      extension.head? ≠ some '.' ∨ latest? history (extension.dropWhile (· = '.')) = latest? history extension
  -- What is entered under a leading dot is reported, and no look-up finds it.
  dotted_idle : ∀ language, (∀ extension ∈ language.extensions, extension.head? = some '.') →
    (∀ extension ∈ language.extensions, extension ∈ (r.register language).extensions) ∧
      ∀ extension, (r.register language).byExtension? extension = r.byExtension? extension

theorem registered_reaches (languages : List Language) : Reaches (history languages) (registered languages) where
  found_iff extension := found_iff
  reached_iff extension := reached_iff
  dotted_idle language hdots := by
    constructor
    · intro extension h
      rw [← isSome_lookup_iff, lookup_register, if_pos h]
      rfl
    · intro extension
      apply byExtension?_register
      intro h
      exact head_dropWhile_dots extension (hdots _ h)

def dottedLanguage : Language where
  name := Text.lit "vue"
  extensions := [Text.lit ".vue"]
  comments _ := .ok []

theorem dotted_extension_missed :
    Text.lit ".vue" ∈ (registered [dottedLanguage]).extensions ∧
      latest? (history [dottedLanguage]) (Text.lit ".vue") = some dottedLanguage ∧
      (registered [dottedLanguage]).byExtension? (Text.lit ".vue") = none :=
  ⟨by decide, rfl, rfl⟩

end Marginalia.Registry
