import Marginalia.Proofs.Comment.WellFormed

/-! Tag options. They decide which tags are read and which lines stay, and nothing else of a comment depends on
them. Blank edges may go before the tag lines are taken out or after, with the same result. -/

namespace Marginalia

namespace Tag

lemma isSome_ofLine? (line : Text) : (ofLine? line).isSome = decide (line.head? = some '@') := by
  rw [Bool.eq_iff_iff, ofLine?_isSome_iff, decide_eq_true_iff]

lemma isNone_ofLine? (line : Text) : (ofLine? line).isNone = decide (line.head? ≠ some '@') := by
  rw [Bool.eq_iff_iff, Option.isNone_iff_eq_none, ofLine?_eq_none_iff, decide_eq_true_iff]

lemma map_some_filterMap_ofLine? (lines : List Text) :
    (lines.filterMap ofLine?).map some = (lines.filter fun l => l.head? = some '@').map ofLine? := by
  have hstated : Option.isSome ∘ ofLine? = fun l => decide (l.head? = some '@') := funext isSome_ofLine?
  rw [List.map_filterMap_some_eq_filter_map_isSome, List.filter_map]
  exact congrArg (fun p => (lines.filter p).map ofLine?) hstated

lemma extract_strip (lines : List Text) :
    extract (Ends.strip Text.isBlank lines) true = extract lines true := by
  have htags : (Ends.strip Text.isBlank lines).filterMap ofLine? = lines.filterMap ofLine? :=
    Ends.filterMap_strip fun _ => ofLine?_of_isBlank
  have hlines : (extract (Ends.strip Text.isBlank lines) true).lines = (extract lines true).lines := by
    rw [extract_lines_removed, extract_lines_removed, Ends.strip_filter_strip]
  exact congrArg₂ Extracted.mk htags hlines

end Tag

namespace Comment

structure SameFrame (a b : Comment) : Prop where
  startLine : a.startLine = b.startLine
  endLine : a.endLine = b.endLine
  isDoc : a.isDoc = b.isDoc
  node : a.node = b.node

/-- The records of one raw comment with tag lines removed, with tag lines kept, and with tags left unparsed. -/
structure TagReadings (raw : RawComment) (trim : TrimPolicy) (removed kept unparsed : Comment) : Prop where
  frame_removed : removed.SameFrame unparsed
  frame_kept : kept.SameFrame unparsed
  tags_alike : removed.tags = kept.tags
  tags_stated : kept.tags.map some = (unparsed.lines.filter fun l => l.head? = some '@').map Tag.ofLine?
  lines_kept : kept.lines = unparsed.lines
  lines_removed : removed.lines =
    Ends.strip Text.isBlank (unparsed.lines.filter fun l => l.head? ≠ some '@')
  edges_last : ⟨removed.tags, removed.lines⟩ =
    Tag.extract ((Body.split raw.value).map (Body.cleanLine (Body.stripsMarkers raw.value) trim)) true

end Comment

namespace RawComment

theorem assemble_tagReadings (raw : RawComment) (trim : TrimPolicy) (includeNode ignored : Bool) :
    Comment.TagReadings raw trim
      (raw.assemble { includeNode, parseTags := true, removeTagLines := true, trim })
      (raw.assemble { includeNode, parseTags := true, removeTagLines := false, trim })
      (raw.assemble { includeNode, parseTags := false, removeTagLines := ignored, trim }) where
  frame_removed := ⟨rfl, rfl, rfl, rfl⟩
  frame_kept := ⟨rfl, rfl, rfl, rfl⟩
  tags_alike := rfl
  tags_stated := Tag.map_some_filterMap_ofLine? _
  lines_kept := rfl
  lines_removed := by
    rw [assemble_lines_removed raw _ rfl rfl, assemble_lines_unparsed raw _ rfl]
    exact congrArg (fun p => Ends.strip Text.isBlank (List.filter p _)) (funext Tag.isNone_ofLine?)
  edges_last := by
    rw [← Tag.extract_strip, ← Body.normalize_eq_strip]
    rfl

end RawComment

end Marginalia
