import Marginalia.Comment.Encoding
import Marginalia.Proofs.Json.ReadBack

/-! Comments read back from their JSON values. Numbers must fit into 64 bits; there is no other
condition. -/

namespace Marginalia

namespace Json

lemma mapM_of_forall {α β : Type} {f : α → Option β} {g : α → β} {l : List α}
    (h : ∀ a ∈ l, f a = some (g a)) : l.mapM f = some (l.map g) := by
  induction l with
  | nil => rfl
  | cons a l ih =>
    rw [List.mapM_cons, h a List.mem_cons_self, ih fun b hb => h b (List.mem_cons_of_mem _ hb)]
    rfl

lemma list?_array_map {α : Type} {item? : Json → Option α} {toJson : α → Json} {l : List α}
    (h : ∀ a ∈ l, item? (toJson a) = some a) : list? item? (.array (l.map toJson)) = some l := by
  rw [list?, List.mapM_map]
  exact (mapM_of_forall (g := id) h).trans (by rw [List.map_id])

lemma valuesOf_jsonFields_absent {fields : List (String × Json)} {name : String}
    (h : name ∉ fields.map Prod.fst) :
    valuesOf (Text.lit name) (fields.map fun f => (Text.lit f.1, f.2)) = [] := by
  rw [valuesOf, List.filterMap_map, List.filterMap_eq_nil_iff]
  intro f hf
  have hn : f.1 ≠ name := fun he => h (he ▸ List.mem_map_of_mem hf)
  simpa [Text.lit, String.toList_inj] using hn

lemma valuesOf_jsonFields {fields : List (String × Json)} {f : String × Json}
    (hn : (fields.map Prod.fst).Nodup) (hf : f ∈ fields) :
    valuesOf (Text.lit f.1) (fields.map fun f => (Text.lit f.1, f.2)) = [f.2] := by
  induction fields with
  | nil => simp at hf
  | cons g fields ih =>
    rw [List.map_cons, List.nodup_cons] at hn
    rcases List.mem_cons.mp hf with rfl | hf
    · simpa [valuesOf] using valuesOf_jsonFields_absent hn.1
    · have hg : g.1 ≠ f.1 := fun he => hn.1 (he ▸ List.mem_map_of_mem hf)
      have hrest := ih hn.2 hf
      rw [valuesOf] at hrest
      simpa [valuesOf, Text.lit, String.toList_inj, hg] using hrest

lemma record?_jsonFields (fields : List (String × Json)) (absent : List String)
    (h : (fields.map Prod.fst ++ absent).Nodup) :
    record? (fields.map Prod.fst ++ absent) (jsonFields fields) =
      some (fields.map (fun f => some f.2) ++ absent.map fun _ => none) := by
  obtain ⟨hn, -, hd⟩ := List.nodup_append.mp h
  rw [jsonFields, record?, List.mapM_append, List.mapM_map]
  rw [mapM_of_forall (l := fields) (g := fun f => some f.2) fun f hf => by
      simp [valuesOf_jsonFields hn hf],
    mapM_of_forall (l := absent) (g := fun _ => none) fun a ha => by
      simp [valuesOf_jsonFields_absent fun hm => hd a hm a ha rfl]]
  rfl

lemma word?_natural {n : Nat} (h : n < wordBound) : word? (.natural n) = some n := if_pos h

end Json

lemma CommentKind.ofJson?_toJson (kind : CommentKind) : ofJson? kind.toJson = some kind := by
  cases kind <;> rfl

namespace Position

def Fits (p : Position) : Prop := p.line < Json.wordBound ∧ p.column < Json.wordBound

lemma ofJson?_toJson {p : Position} (h : p.Fits) : ofJson? p.toJson = some p := by
  have hr : p.toJson.record? ["line", "column"] = some [some (.natural p.line), some (.natural p.column)] :=
    Json.record?_jsonFields [("line", .natural p.line), ("column", .natural p.column)] [] (by simp)
  simp [ofJson?, hr, Json.word?_natural h.1, Json.word?_natural h.2]

end Position

namespace Location

def Fits (l : Location) : Prop := l.start.Fits ∧ l.stop.Fits

lemma ofJson?_toJson {l : Location} (h : l.Fits) : ofJson? l.toJson = some l := by
  have hr : l.toJson.record? ["start", "end"] = some [some l.start.toJson, some l.stop.toJson] :=
    Json.record?_jsonFields [("start", l.start.toJson), ("end", l.stop.toJson)] [] (by simp)
  simp [ofJson?, hr, Position.ofJson?_toJson h.1, Position.ofJson?_toJson h.2]

end Location

namespace CommentNode

def Fits (n : CommentNode) : Prop :=
  n.range.1 < Json.wordBound ∧ n.range.2 < Json.wordBound ∧ n.location.Fits

lemma ofJson?_toJson {n : CommentNode} (h : n.Fits) : ofJson? n.toJson = some n := by
  have hr : n.toJson.record? ["type", "range", "loc"] = some [some n.kind.toJson,
      some (.array [.natural n.range.1, .natural n.range.2]), some n.location.toJson] :=
    Json.record?_jsonFields [("type", n.kind.toJson),
      ("range", .array [.natural n.range.1, .natural n.range.2]), ("loc", n.location.toJson)] [] (by simp)
  obtain ⟨h1, h2, hl⟩ := h
  simp [ofJson?, hr, CommentKind.ofJson?_toJson, range?, Json.word?_natural h1, Json.word?_natural h2,
    Location.ofJson?_toJson hl]

-- A node is never written as null, so it is not taken for an absent one.
lemma optional?_toJson {n : CommentNode} (h : n.Fits) :
    Json.optional? ofJson? (some n.toJson) = some (some n) := by
  have ho : Json.optional? ofJson? (some n.toJson) = (ofJson? n.toJson).map some := rfl
  rw [ho, ofJson?_toJson h]
  rfl

end CommentNode

lemma TagValue.ofJson?_toJson (value : TagValue) : ofJson? value.toJson = some value := by
  cases value <;> rfl

lemma Tag.ofJson?_toJson (tag : Tag) : ofJson? tag.toJson = some tag := by
  have hr : tag.toJson.record? ["name", "value"] = some [some (.string tag.name), some tag.value.toJson] :=
    Json.record?_jsonFields [("name", .string tag.name), ("value", tag.value.toJson)] [] (by simp)
  simp [ofJson?, hr, Json.text?, TagValue.ofJson?_toJson]

namespace Comment

def Fits (c : Comment) : Prop :=
  c.startLine < Json.wordBound ∧ c.endLine < Json.wordBound ∧ ∀ n ∈ c.node, n.Fits

def fields (c : Comment) : List (String × Json) :=
  [("start", .natural c.startLine), ("end", .natural c.endLine), ("lines", .array (c.lines.map .string)),
    ("jsDoc", .bool c.isDoc), ("tags", .array (c.tags.map Tag.toJson))]

lemma record?_toJson (c : Comment) :
    c.toJson.record? ["start", "end", "lines", "jsDoc", "tags", "node"] =
      some (c.fields.map (fun f => some f.2) ++ [c.node.map CommentNode.toJson]) := by
  cases hn : c.node with
  | none =>
    have hj : c.toJson = jsonFields c.fields := by simp [toJson, hn, fields]
    rw [hj]
    exact Json.record?_jsonFields c.fields ["node"] (by simp [fields])
  | some node =>
    have hj : c.toJson = jsonFields (c.fields ++ [("node", node.toJson)]) := by simp [toJson, hn, fields]
    rw [hj]
    exact Json.record?_jsonFields (c.fields ++ [("node", node.toJson)]) [] (by simp [fields])

lemma ofJson?_toJson {c : Comment} (h : c.Fits) : ofJson? c.toJson = some c := by
  have hl : Json.list? Json.text? (.array (c.lines.map .string)) = some c.lines :=
    Json.list?_array_map fun _ _ => rfl
  have ht : Json.list? Tag.ofJson? (.array (c.tags.map Tag.toJson)) = some c.tags :=
    Json.list?_array_map fun tag _ => tag.ofJson?_toJson
  have hn : Json.optional? CommentNode.ofJson? (c.node.map CommentNode.toJson) = some c.node := by
    cases hc : c.node with
    | none => rfl
    | some node => exact CommentNode.optional?_toJson (h.2.2 node hc)
  simp [ofJson?, record?_toJson, fields, Json.word?_natural h.1, Json.word?_natural h.2.1, hl, ht, hn,
    Json.bool?]

end Comment

namespace FileComments

def Fits (f : FileComments) : Prop := ∀ c ∈ f.comments, c.Fits

lemma ofJson?_toJson {f : FileComments} (h : f.Fits) : ofJson? f.toJson = some f := by
  have hr : f.toJson.record? ["file", "comments"] =
      some [some (.string f.file), some (.array (f.comments.map Comment.toJson))] :=
    Json.record?_jsonFields [("file", .string f.file),
      ("comments", .array (f.comments.map Comment.toJson))] [] (by simp)
  have hc : Json.list? Comment.ofJson? (.array (f.comments.map Comment.toJson)) = some f.comments :=
    Json.list?_array_map fun c hc => Comment.ofJson?_toJson (h c hc)
  simp [ofJson?, hr, Json.text?, hc]

end FileComments

end Marginalia
