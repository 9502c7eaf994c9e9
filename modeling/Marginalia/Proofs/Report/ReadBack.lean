import Marginalia.Proofs.Comment.Encoding
import Marginalia.Report.Format

/-! Reports in JSON are read back as the comments they were made from. -/

namespace Marginalia

namespace Json

lemma plain_jsonFields {fields : List (String × Json)} (h : ∀ f ∈ fields, Plain f.2) :
    Plain (jsonFields fields) := by
  refine .object fun f hf => ?_
  obtain ⟨g, hg, rfl⟩ := List.mem_map.mp hf
  exact h g hg

lemma plain_array_map {α : Type} {toJson : α → Json} (h : ∀ a, Plain (toJson a)) (l : List α) :
    Plain (.array (l.map toJson)) := by
  refine .array fun v hv => ?_
  obtain ⟨a, -, rfl⟩ := List.mem_map.mp hv
  exact h a

end Json

open Json (Plain plain_jsonFields plain_array_map)

lemma Position.plain_toJson (p : Position) : Plain p.toJson :=
  plain_jsonFields (by simp [Plain.natural])

lemma Location.plain_toJson (l : Location) : Plain l.toJson :=
  plain_jsonFields (by simp [Position.plain_toJson])

lemma CommentNode.plain_toJson (n : CommentNode) : Plain n.toJson := by
  have hrange : Plain (.array [.natural n.range.1, .natural n.range.2]) := .array (by simp [Plain.natural])
  have hkind : Plain n.kind.toJson := .string _
  exact plain_jsonFields (by simp [hrange, hkind, Location.plain_toJson])

lemma Tag.plain_toJson (tag : Tag) : Plain tag.toJson := by
  have hvalue : Plain tag.value.toJson := by
    cases tag.value with
    | present v => exact .string v
    | flag => exact .bool true
  exact plain_jsonFields (by simp [Plain.string, hvalue])

lemma Comment.plain_toJson (c : Comment) : Plain c.toJson := by
  refine plain_jsonFields fun f hf => ?_
  rcases List.mem_append.mp hf with hf | hf
  · have hlines := plain_array_map Plain.string c.lines
    have htags := plain_array_map Tag.plain_toJson c.tags
    revert f
    simp [Plain.natural, Plain.bool, hlines, htags]
  · obtain ⟨node, -, rfl⟩ := List.mem_map.mp hf
    exact node.plain_toJson

lemma FileComments.plain_toJson (f : FileComments) : Plain f.toJson := by
  have hcomments := plain_array_map Comment.plain_toJson f.comments
  exact plain_jsonFields (by simp [Plain.string, hcomments])

namespace Report

def readFiles? (t : Text) : Option (List FileComments) :=
  (Json.read? t).bind (Json.list? FileComments.ofJson?)

def readComments? (t : Text) : Option (List Comment) := (Json.read? t).bind (Json.list? Comment.ofJson?)

variable {s : Text}

lemma readFiles?_filesJson {files : List FileComments} (h : ∀ f ∈ files, f.Fits) (indented : Bool)
    (ht : ∀ c ∈ s, Json.Token.isSpace c = true) :
    readFiles? (filesJson indented files ++ s) = some files := by
  rw [readFiles?, filesJson, Json.read?_print (plain_array_map FileComments.plain_toJson files) indented ht]
  exact Json.list?_array_map fun f hf => FileComments.ofJson?_toJson (h f hf)

lemma readComments?_commentsJson {comments : List Comment} (h : ∀ c ∈ comments, c.Fits) (indented : Bool)
    (ht : ∀ c ∈ s, Json.Token.isSpace c = true) :
    readComments? (commentsJson indented comments ++ s) = some comments := by
  rw [readComments?, commentsJson, Json.read?_print (plain_array_map Comment.plain_toJson comments) indented ht]
  exact Json.list?_array_map fun c hc => Comment.ofJson?_toJson (h c hc)

lemma exists_terminated_eq (t : Text) :
    ∃ s, Text.terminated t = t ++ s ∧ ∀ c ∈ s, Json.Token.isSpace c = true := by
  unfold Text.terminated
  split
  · exact ⟨[], by simp, by simp⟩
  · exact ⟨['\n'], rfl, List.forall_mem_singleton.mpr rfl⟩

theorem read_json_reports (indented : Bool) (files : List FileComments) (comments : List Comment)
    (hf : ∀ f ∈ files, f.Fits) (hc : ∀ c ∈ comments, c.Fits) :
    (readFiles? (filesJson indented files) = some files ∧
      readFiles? (Text.terminated (filesJson indented files)) = some files) ∧
    readComments? (commentsJson indented comments) = some comments ∧
      readComments? (Text.terminated (commentsJson indented comments)) = some comments := by
  obtain ⟨s, hs, hs'⟩ := exists_terminated_eq (filesJson indented files)
  obtain ⟨u, hu, hu'⟩ := exists_terminated_eq (commentsJson indented comments)
  refine ⟨⟨?_, ?_⟩, ?_, ?_⟩
  · simpa using readFiles?_filesJson (s := []) hf indented (by simp)
  · rw [hs, readFiles?_filesJson hf indented hs']
  · simpa using readComments?_commentsJson (s := []) hc indented (by simp)
  · rw [hu, readComments?_commentsJson hc indented hu']

def sampleComments : List Comment :=
  [{ startLine := 0
     endLine := 18446744073709551615
     lines := [Text.lit "\"\\\x01\t\x7f", [], Text.lit "\u2028😀"]
     isDoc := true
     tags := [⟨[], .flag⟩, ⟨Text.lit "flag", .present (Text.lit "true")⟩]
     node := some ⟨.block, (1, 18446744073709551615), ⟨⟨1, 0⟩, ⟨2, 18446744073709551615⟩⟩⟩ },
    { startLine := 1, endLine := 1, lines := [], isDoc := false, tags := [], node := none }]

theorem read_json_reports_sample :
    (∀ c ∈ sampleComments, c.Fits) ∧
      readFiles? (Text.terminated (filesJson true [⟨Text.lit "a\nb.js", sampleComments⟩, ⟨[], []⟩])) =
        some [⟨Text.lit "a\nb.js", sampleComments⟩, ⟨[], []⟩] ∧
      readComments? (Text.terminated (commentsJson true sampleComments)) = some sampleComments := by
  have hc : ∀ c ∈ sampleComments, c.Fits := by
    simp [sampleComments, Comment.Fits, CommentNode.Fits, Location.Fits, Position.Fits, Json.wordBound]
  have hf : ∀ f ∈ [⟨Text.lit "a\nb.js", sampleComments⟩, ⟨[], []⟩], FileComments.Fits f := by
    simpa [FileComments.Fits] using hc
  obtain ⟨⟨-, h⟩, -, h'⟩ := read_json_reports true _ sampleComments hf hc
  exact ⟨hc, h, h'⟩

end Report

end Marginalia
