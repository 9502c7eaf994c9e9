import Marginalia.Proofs.Source.Lexemes
import Mathlib.Data.List.DropRight

/-! Lexemes lie side by side from the start of a script to its end. The marks between them say how many bytes
and rows are behind, and the text of a comment is an opening, a body and, for a block, a closing. -/

namespace Marginalia

namespace Text

lemma bytes_append (s t : Text) : (s ++ t).bytes = s.bytes ++ t.bytes := List.flatMap_append

lemma length_bytes_singleton (c : Char) : (bytes [c]).length = c.utf8Size := by
  simp [bytes]

lemma length_bytes_pos {t : Text} (h : t ≠ []) : 0 < t.bytes.length := by
  obtain ⟨c, t, rfl⟩ := List.exists_cons_of_ne_nil h
  rw [← List.singleton_append, bytes_append, List.length_append, length_bytes_singleton]
  exact Nat.add_pos_left c.utf8Size_pos _

def lastRow (t : Text) : Text := t.rtakeWhile (· ≠ '\n')

lemma lastRow_concat (t : Text) (c : Char) : lastRow (t ++ [c]) = if c = '\n' then [] else lastRow t ++ [c] := by
  by_cases hc : c = '\n' <;> simp [lastRow, hc]

end Text

namespace Source

namespace Mark

def after (before : Text) : Mark := advance {} before

lemma advance_append (m : Mark) (s t : Text) : m.advance (s ++ t) = (m.advance s).advance t :=
  List.foldl_append

lemma after_append (s t : Text) : after (s ++ t) = (after s).advance t :=
  advance_append {} s t

lemma after_concat (t : Text) (c : Char) : after (t ++ [c]) = (after t).step c :=
  after_append t [c]

@[simp] lemma offset_after (t : Text) : (after t).offset = t.bytes.length := by
  induction t using List.reverseRecOn with
  | nil => rfl
  | append_singleton t c ih =>
    rw [after_concat, Text.bytes_append, List.length_append, Text.length_bytes_singleton, step]
    split
    · next hc =>
      rw [ih, hc]
      rfl
    · rw [ih]

@[simp] lemma row_after (t : Text) : (after t).row = t.count '\n' := by
  rw [after, advance_row, Nat.zero_add]

@[simp] lemma column_after (t : Text) : (after t).column = t.lastRow.bytes.length := by
  induction t using List.reverseRecOn with
  | nil => rfl
  | append_singleton t c ih =>
    rw [after_concat, Text.lastRow_concat, step]
    split
    · rfl
    · rw [ih, Text.bytes_append, List.length_append, Text.length_bytes_singleton]

end Mark

def markupOpenings : List Text := [Text.lit "<!--", Text.lit "-->"]

inductive Spelled : LexemeKind → Text → Prop
  | line {body : Text} : (∀ c ∈ body, isLineEnd c = false) → Spelled .lineComment ('/' :: '/' :: body)
  | block {body : Text} : ¬closer <:+: body → Spelled .blockComment ('/' :: '*' :: (body ++ closer))
  | markup {opening body : Text} : opening ∈ markupOpenings → (∀ c ∈ body, isRowEnd c = false) →
      Spelled .markupComment (opening ++ body)
  | other {kind : LexemeKind} {text : Text} : kind.isComment = false → text ≠ [] → Spelled kind text

lemma exists_of_blockExtent?_go {n k : Nat} {cs : Text} (h : blockExtent?.go n cs = some k) :
    ∃ body rest, cs = body ++ closer ++ rest ∧ ¬closer <:+: body ∧ k = n + body.length + 2 := by
  induction cs generalizing n with
  | nil => simp [blockExtent?.go] at h
  | cons c cs ih =>
    unfold blockExtent?.go at h
    split at h
    · next rest =>
      exact ⟨[], rest, rfl, by decide, by simpa using h.symm⟩
    · next hclose =>
      obtain ⟨body, rest, rfl, hb, rfl⟩ := ih h
      refine ⟨c :: body, rest, rfl, ?_, by simp; omega⟩
      -- The closer does not start at `c` either: the search would have stopped there.
      rw [List.infix_cons_iff, not_or]
      refine ⟨fun hp => ?_, hb⟩
      cases body with
      | nil => simp [closer] at hp
      | cons e body =>
        simp only [closer, List.cons_prefix_cons, List.nil_prefix, and_true] at hp
        exact hclose _ hp.1.symm (by rw [← hp.2]; rfl)

lemma take_runLength (p : Char → Bool) (cs : Text) : cs.take (runLength p cs) = cs.takeWhile p :=
  (List.prefix_iff_eq_take.mp (List.takeWhile_prefix p)).symm

namespace Context

variable {d : Dialect} {c : Context} {ch : Char} {cs : Text} {s : Step}

@[simp] lemma kind_slashStep : (c.slashStep cs).kind = .code := by
  unfold slashStep
  split
  · split <;> rfl
  · rfl

@[simp] lemma kind_punctuationStep : (c.punctuationStep d ch cs).kind = .code := by
  unfold punctuationStep
  split <;> try rfl
  all_goals split <;> try rfl
  all_goals split <;> try rfl
  all_goals split <;> rfl

lemma isComment_ite {p : Prop} [Decidable p] {t : Step} (hs : s.kind.isComment = false)
    (ht : t.kind.isComment = false) : (if p then s else t).kind.isComment = false := by
  split
  · exact hs
  · exact ht

lemma spelled_of_not_isComment (h : s.kind.isComment = false) : Spelled s.kind (ch :: cs.take s.extra) :=
  .other h (List.cons_ne_nil _ _)

lemma spelled_commentStep? (h : c.commentStep? cs = some s) : Spelled s.kind ('/' :: cs.take s.extra) := by
  unfold commentStep? at h
  split at h
  · next rest =>
    obtain rfl := Option.some.inj h
    rw [Nat.add_comm, List.take_succ_cons, take_runLength]
    refine .line fun x hx => ?_
    simpa using List.mem_takeWhile_imp hx
  · next rest =>
    split at h
    · next n hn =>
      obtain rfl := Option.some.inj h
      obtain ⟨body, tail, rfl, hb, rfl⟩ := exists_of_blockExtent?_go hn
      have hlen : 0 + body.length + 2 = (body ++ closer).length := by simp [closer]
      rw [Nat.add_comm, List.take_succ_cons, hlen, List.take_left]
      exact .block hb
    · obtain rfl := Option.some.inj h
      exact spelled_of_not_isComment rfl
  · simp at h

lemma spelled_toRowEnd {n : Nat} (ho : ch :: cs.take n ∈ markupOpenings) :
    Spelled .markupComment (ch :: cs.take (n + runLength (fun x => !isRowEnd x) (cs.drop n))) := by
  have htake : ch :: cs.take (n + runLength (fun x => !isRowEnd x) (cs.drop n)) =
      (ch :: cs.take n) ++ (cs.drop n).takeWhile (fun x => !isRowEnd x) := by
    rw [List.take_add, take_runLength, List.cons_append]
  rw [htake]
  refine .markup ho fun x hx => ?_
  simpa using List.mem_takeWhile_imp hx

lemma spelled_markupCommentStep? (h : c.markupCommentStep? ch cs = some s) :
    Spelled s.kind (ch :: cs.take s.extra) := by
  unfold markupCommentStep? at h
  split at h
  · rw [Option.ite_none_right_eq_some] at h
    obtain ⟨-, h⟩ := h
    obtain rfl := Option.some.inj h
    exact spelled_toRowEnd (by simp [markupOpenings, Text.lit])
  · rw [Option.ite_none_right_eq_some] at h
    obtain ⟨-, h⟩ := h
    obtain rfl := Option.some.inj h
    exact spelled_toRowEnd (by simp [markupOpenings, Text.lit])
  · simp at h

lemma spelled_codeStep (h : c.codeStep d ch cs = s) : Spelled s.kind (ch :: cs.take s.extra) := by
  rw [codeStep] at h
  by_cases hgap : isGap ch = true
  · rw [if_pos hgap] at h
    exact spelled_of_not_isComment (h ▸ rfl)
  rw [if_neg hgap] at h
  by_cases hline : c.opensInterpreterLine ch cs = true
  · rw [if_pos hline] at h
    exact spelled_of_not_isComment (h ▸ rfl)
  rw [if_neg hline] at h
  by_cases hslash : ch = '/'
  · rw [if_pos hslash] at h
    subst hslash
    cases hs : c.commentStep? cs with
    | none =>
      rw [hs, Option.getD_none] at h
      exact spelled_of_not_isComment (by simp [← h, LexemeKind.isComment])
    | some s' =>
      rw [hs, Option.getD_some] at h
      exact spelled_commentStep? (h ▸ hs)
  rw [if_neg hslash] at h
  cases hs : c.markupCommentStep? ch cs with
  | none =>
    simp only [hs] at h
    apply spelled_of_not_isComment
    rw [← h]
    repeat refine isComment_ite rfl ?_
    rw [kind_punctuationStep]
    rfl
  | some s' =>
    simp only [hs] at h
    exact spelled_markupCommentStep? (h ▸ hs)

lemma spelled_tagStep {closing : Bool} (h : c.tagStep closing ch cs = s) :
    Spelled s.kind (ch :: cs.take s.extra) := by
  unfold tagStep at h
  split at h
  · exact spelled_of_not_isComment (h ▸ rfl)
  split at h
  · next hslash =>
    subst hslash
    split at h
    · next s' hs => exact spelled_commentStep? (h ▸ hs)
    · apply spelled_of_not_isComment
      rw [← h]
      split_ifs <;> rfl
  · apply spelled_of_not_isComment
    rw [← h]
    split_ifs <;> rfl

lemma spelled_step (h : c.step d ch cs = s) : Spelled s.kind (ch :: cs.take s.extra) := by
  unfold step at h
  split at h
  · apply spelled_of_not_isComment
    rw [← h, templateStep]
    split_ifs <;> rfl
  · exact spelled_tagStep h
  · apply spelled_of_not_isComment
    rw [← h, elementStep]
    split_ifs <;> rfl
  · exact spelled_codeStep h

end Context

/-- Lexemes that lie side by side after `before` and make up the text that follows it. -/
inductive Tiles : Text → List Lexeme → Text → Prop
  | nil {before : Text} : Tiles before [] []
  | cons {before rest : Text} {l : Lexeme} {ls : List Lexeme} : l.start = .after before →
      l.stop = .after (before ++ l.text) → Spelled l.kind l.text → Tiles (before ++ l.text) ls rest →
      Tiles before (l :: ls) (l.text ++ rest)

namespace Lexeme

variable {d : Dialect} {c : Context} {m : Mark} {ch : Char}

lemma scanFrom_eq_append (d : Dialect) (c : Context) (m : Mark) (found : List Lexeme) :
    (cs : Text) → scanFrom d c m found cs = found.reverse ++ scanFrom d c m [] cs
  | [] => by simp [scanFrom]
  | ch :: cs => by
    rw [scanFrom, scanFrom, scanFrom_eq_append d _ _ (_ :: found), scanFrom_eq_append d _ _ [_]]
    simp
termination_by cs => cs.length
decreasing_by all_goals simp only [List.length_drop, List.length_cons]; omega

lemma scanFrom_cons (cs : Text) :
    scanFrom d c m [] (ch :: cs) = ofStep (c.step d ch cs) m ch cs ::
      scanFrom d (c.step d ch cs).next (ofStep (c.step d ch cs) m ch cs).stop [] (cs.drop (c.step d ch cs).extra) := by
  rw [scanFrom, scanFrom_eq_append]
  rfl

-- The mark is the one after `before` at every step, which is all that has to carry over.
lemma tiles_scanFrom (d : Dialect) (c : Context) (before : Text) :
    (cs : Text) → Tiles before (scanFrom d c (.after before) [] cs) cs
  | [] => by
    rw [scanFrom]
    exact .nil
  | ch :: cs => by
    have hsplit : ch :: cs = (ch :: cs.take (c.step d ch cs).extra) ++ cs.drop (c.step d ch cs).extra := by
      rw [List.cons_append, List.take_append_drop]
    rw [scanFrom_cons]
    conv => arg 3; rw [hsplit]
    refine .cons rfl (Mark.after_append _ _).symm (Context.spelled_step rfl) ?_
    have hstop : (ofStep (c.step d ch cs) (.after before) ch cs).stop =
        .after (before ++ ch :: cs.take (c.step d ch cs).extra) := (Mark.after_append _ _).symm
    rw [hstop]
    exact tiles_scanFrom d _ _ _
termination_by cs => cs.length
decreasing_by simp only [List.length_drop, List.length_cons]; omega

lemma tiles_scan (d : Dialect) (source : Text) : Tiles [] (scan d source) source :=
  tiles_scanFrom d .initial [] source

end Lexeme

namespace Tiles

variable {before rest : Text} {l : Lexeme} {ls : List Lexeme}

lemma exists_of_mem (h : Tiles before ls rest) (hl : l ∈ ls) :
    ∃ s t, rest = s ++ l.text ++ t ∧ l.start = .after (before ++ s) ∧ l.stop = .after (before ++ s ++ l.text) ∧
      Spelled l.kind l.text := by
  induction h with
  | nil => simp at hl
  | @cons before rest k ls hstart hstop hspelled _ ih =>
    rcases List.mem_cons.mp hl with rfl | hl
    · exact ⟨[], rest, by simp, by simpa using hstart, by simpa using hstop, hspelled⟩
    · obtain ⟨s, t, rfl, hs, ht, hk⟩ := ih hl
      exact ⟨k.text ++ s, t, by simp, by simpa using hs, by simpa using ht, hk⟩

lemma pairwise (h : Tiles before ls rest) : ls.Pairwise fun k l => k.stop.offset ≤ l.start.offset := by
  induction h with
  | nil => exact .nil
  | @cons before rest k ls _ hstop _ htiles ih =>
    refine .cons (fun l hl => ?_) ih
    obtain ⟨s, -, -, hs, -⟩ := htiles.exists_of_mem hl
    rw [hstop, hs, Mark.offset_after, Mark.offset_after, Text.bytes_append _ s, List.length_append]
    exact Nat.le_add_right _ _

end Tiles

end Source

end Marginalia
