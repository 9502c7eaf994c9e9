import Marginalia.Comment.Body
import Marginalia.Proofs.Comment.Edges
import Marginalia.Proofs.Text.Parts
import Marginalia.Proofs.Text.Trim

/-! The lines of a body: what is kept of each line comes from it, and no line holds a line feed. -/

namespace Marginalia.Body

open Ends

variable {value line : Text} {strip : Bool} {trim : TrimPolicy} {c : Char}

lemma notMem_of_mem_split (h : line ∈ split value) : '\n' ∉ line := by
  obtain ⟨piece, hp, rfl⟩ := List.mem_map.mp h
  intro hc
  exact Text.notMem_of_mem_splitOn piece hp (Text.mem_of_mem_dropFinal hc)

inductive LineEnd where
  | lf
  | crlf

def LineEnd.text : LineEnd → Text
  | lf => ['\n']
  | crlf => ['\r', '\n']

def lined : List (Text × LineEnd) → Text → Text
  | [], last => last
  | (line, lineEnd) :: lines, last => line ++ lineEnd.text ++ lined lines last

lemma split_append_lineEnd (hn : '\n' ∉ line) (hr : line.getLast? ≠ some '\r') (lineEnd : LineEnd)
    (rest : Text) : split (line ++ lineEnd.text ++ rest) = line :: split rest := by
  cases lineEnd with
  | lf =>
    have hs : line ++ ['\n'] ++ rest = line ++ '\n' :: rest := by simp
    rw [LineEnd.text, hs, split, List.splitOn_append_cons_self_of_not_mem hn, List.map_cons,
      Text.dropFinal, if_neg hr, split]
  | crlf =>
    have hs : line ++ ['\r', '\n'] ++ rest = (line ++ ['\r']) ++ '\n' :: rest := by simp
    have hn' : '\n' ∉ line ++ ['\r'] := by simpa using hn
    rw [LineEnd.text, hs, split, List.splitOn_append_cons_self_of_not_mem hn', List.map_cons,
      Text.dropFinal, if_pos List.getLast?_concat, List.dropLast_concat, split]

lemma split_lined {lines : List (Text × LineEnd)} (last : Text)
    (h : ∀ l ∈ lines, '\n' ∉ l.1 ∧ l.1.getLast? ≠ some '\r') :
    split (lined lines last) = lines.map Prod.fst ++ split last := by
  induction lines with
  | nil => rfl
  | cons l lines ih =>
    obtain ⟨hn, hr⟩ := h l List.mem_cons_self
    rw [lined, split_append_lineEnd hn hr, ih fun k hk => h k (List.mem_cons_of_mem _ hk)]
    rfl

lemma mem_of_mem_stripMarker (h : c ∈ stripMarker line) : c ∈ line := by
  unfold stripMarker at h
  cases hm : afterMarker? line with
  | none => simpa [hm] using h
  | some rest =>
    rw [hm, Option.getD_some] at h
    have hs : Text.trimStart line = ['*'] ++ rest := Text.after?_eq_some_iff.mp hm
    refine (List.dropWhile_suffix Text.isSpace).subset ?_
    rw [Text.trimStart] at hs
    rw [hs]
    exact List.mem_append_right _ h

lemma mem_of_mem_cleanLine (h : c ∈ cleanLine strip trim line) : c ∈ line := by
  have hl := trim.mem_of_mem_apply h
  cases strip with
  | false => exact hl
  | true => exact mem_of_mem_stripMarker hl

lemma normalize_eq_strip (value : Text) (s : Bool) (trim : TrimPolicy) :
    normalize value s trim = Ends.strip Text.isBlank ((split value).map (cleanLine s trim)) :=
  Edges.cut_eq_strip _

lemma mem_normalize (h : line ∈ normalize value strip trim) :
    ∃ raw ∈ split value, cleanLine strip trim raw = line := by
  rw [normalize_eq_strip] at h
  exact List.mem_map.mp (mem_of_mem_strip h)

lemma notMem_of_mem_normalize (h : line ∈ normalize value strip trim) : '\n' ∉ line := by
  obtain ⟨raw, hr, rfl⟩ := mem_normalize h
  intro hc
  exact notMem_of_mem_split hr (mem_of_mem_cleanLine hc)

lemma apply_of_mem_normalize (h : line ∈ normalize value strip trim) : trim.apply line = line := by
  obtain ⟨raw, -, rfl⟩ := mem_normalize h
  exact trim.apply_apply

end Marginalia.Body
