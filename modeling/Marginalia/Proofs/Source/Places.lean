import Marginalia.Language.Basic
import Marginalia.Proofs.Comment.Lines
import Marginalia.Proofs.Source.Scan

/-! Where comments stand. The range of a comment, its lines and its columns, and its body are computed apart;
they all describe one stretch of the source. -/

namespace Marginalia

lemma Body.length_split (value : Text) : (Body.split value).length = value.count '\n' + 1 := by
  rw [Body.split, List.length_map]
  induction value with
  | nil => rfl
  | cons c value ih =>
    obtain ⟨first, rest, hs, ⟨rfl, hc⟩ | ⟨hne, hc⟩⟩ := Text.splitOn_cons_cases '\n' c value
    · rw [hc, ← hs, List.length_cons, ih, List.count_cons_self]
    · rw [hs] at ih
      rw [hc, List.count_cons_of_ne hne, ← ih]
      rfl

namespace Source

inductive Written : CommentKind → Text → Text → Prop
  | block {value : Text} : ¬Text.lit "*/" <:+: value →
      Written .block value (Text.lit "/*" ++ value ++ Text.lit "*/")
  | line {opening value ending : Text} : opening ∈ [Text.lit "//", Text.lit "<!--", Text.lit "-->"] →
      ending ∈ [[], ['\r']] → '\n' ∉ value → Written .line value (opening ++ value ++ ending)

lemma Written.ne_nil {kind : CommentKind} {value text : Text} (h : Written kind value text) : text ≠ [] := by
  cases h with
  | block => exact List.cons_ne_nil _ _
  | line ho =>
    rintro hn
    simp only [List.append_eq_nil_iff] at hn
    rw [hn.1.1] at ho
    exact absurd ho (by decide)

lemma Written.count {kind : CommentKind} {value text : Text} (h : Written kind value text) :
    text.count '\n' = value.count '\n' := by
  cases h with
  | block => simp [Text.lit]
  | line ho he =>
    have ho' : ∀ opening ∈ [Text.lit "//", Text.lit "<!--", Text.lit "-->"], opening.count '\n' = 0 := by decide
    have he' : ∀ ending ∈ [[], ['\r']], ending.count '\n' = 0 := by decide
    rw [List.count_append, List.count_append, ho' _ ho, he' _ he]
    omega

lemma undelimit_opening {opening body : Text} (h : opening ∈ Text.lit "//" :: markupOpenings) :
    undelimit (opening ++ body) = (.line, Text.dropFinal '\r' body) := by
  simp only [markupOpenings, List.mem_cons, List.not_mem_nil, or_false] at h
  rcases h with rfl | rfl | rfl <;> rfl

lemma written_opening {opening body : Text} (ho : opening ∈ Text.lit "//" :: markupOpenings) (hb : '\n' ∉ body) :
    Written (undelimit (opening ++ body)).1 (undelimit (opening ++ body)).2 (opening ++ body) := by
  rw [undelimit_opening ho]
  obtain ⟨ending, hbody, he⟩ := Text.dropFinal_append '\r' body
  conv => arg 3; rw [hbody]
  rw [← List.append_assoc]
  exact .line ho (by simpa using he) fun h => hb (Text.mem_of_mem_dropFinal h)

lemma written_undelimit {kind : LexemeKind} {text : Text} (hk : kind.isComment = true) (h : Spelled kind text) :
    Written (undelimit text).1 (undelimit text).2 text := by
  cases h with
  | @line body hb =>
    have hbody : '\n' ∉ body := fun hn => absurd (hb _ hn) (by decide)
    exact @written_opening (Text.lit "//") body List.mem_cons_self hbody
  | @block body hb =>
    rw [undelimit_blockComment]
    exact .block hb
  | @markup opening body ho hb =>
    exact written_opening (List.mem_cons_of_mem _ ho) fun hn => absurd (hb _ hn) (by decide)
  | other hn => simp [hn] at hk

def positionAfter (before : Text) : Position := ⟨before.count '\n' + 1, before.lastRow.bytes.length⟩

lemma Mark.position_after (before : Text) : (Mark.after before).position = positionAfter before := by
  simp [Mark.position, Mark.line, positionAfter]

/-- A comment with its delimiters is the stretch `text` of the source after `before`. -/
structure StandsAt (source before text : Text) (raw : RawComment) (node : CommentNode) : Prop where
  node_eq : raw.node = some node
  isPrefix : before ++ text <+: source
  written : Written node.kind raw.value text
  range : node.range = (before.bytes.length, (before ++ text).bytes.length)
  nonempty : node.range.1 < node.range.2
  start : node.location.start = positionAfter before
  stop : node.location.stop = positionAfter (before ++ text)
  startLine : raw.startLine = node.location.start.line
  endLine : raw.endLine = node.location.stop.line
  lines : (Body.split raw.value).length = raw.endLine - raw.startLine + 1

def recordedNode (kind : CommentKind) (before text : Text) : CommentNode where
  kind := kind
  range := (before.bytes.length, (before ++ text).bytes.length)
  location := ⟨positionAfter before, positionAfter (before ++ text)⟩

def recorded (kind : CommentKind) (value before text : Text) : RawComment where
  value := value
  startLine := (positionAfter before).line
  endLine := (positionAfter (before ++ text)).line
  node := some (recordedNode kind before text)

lemma Lexeme.rawComment_eq_recorded {l : Lexeme} {before : Text} (hstart : l.start = .after before)
    (hstop : l.stop = .after (before ++ l.text)) :
    l.rawComment = recorded (undelimit l.text).1 (undelimit l.text).2 before l.text := by
  simp only [Lexeme.rawComment, hstart, hstop, Mark.offset_after, Mark.position_after]
  simp only [Mark.line, Mark.row_after]
  rfl

lemma standsAt_recorded {source before text value : Text} {kind : CommentKind} (hp : before ++ text <+: source)
    (hw : Written kind value text) :
    StandsAt source before text (recorded kind value before text) (recordedNode kind before text) := by
  refine ⟨rfl, hp, hw, rfl, ?_, rfl, rfl, rfl, rfl, ?_⟩
  · have := Text.length_bytes_pos hw.ne_nil
    simp only [recordedNode, Text.bytes_append, List.length_append]
    omega
  · simp only [recorded, positionAfter, Body.length_split, List.count_append, hw.count]
    omega

theorem comments_standing (d : Dialect) (source : Text) :
    ∃ raws, (Language.ofDialect d).comments source = .ok raws ∧
      (∀ raw ∈ raws, ∃ before text node, StandsAt source before text raw node) ∧
      raws.Pairwise fun r s => ∀ m ∈ r.node, ∀ n ∈ s.node, m.range.2 ≤ n.range.1 := by
  have htiles := Lexeme.tiles_scan d source
  refine ⟨comments d source, rfl, ?_, ?_⟩
  · intro raw hraw
    rw [comments_eq_map_filter] at hraw
    obtain ⟨l, hl, rfl⟩ := List.mem_map.mp hraw
    obtain ⟨hl, hk⟩ := List.mem_filter.mp hl
    obtain ⟨before, rest, hs, hstart, hstop, hspelled⟩ := htiles.exists_of_mem hl
    rw [Lexeme.rawComment_eq_recorded hstart hstop]
    exact ⟨before, l.text, _, standsAt_recorded ⟨rest, hs.symm⟩ (written_undelimit hk hspelled)⟩
  · rw [comments_eq_map_filter, List.pairwise_map]
    refine (htiles.pairwise.sublist List.filter_sublist).imp fun h m hm n hn => ?_
    obtain rfl := Option.some.inj hm
    obtain rfl := Option.some.inj hn
    exact h

end Source

end Marginalia
