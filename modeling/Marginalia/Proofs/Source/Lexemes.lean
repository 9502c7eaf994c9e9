import Marginalia.Proofs.Source.Traversal
import Mathlib.Data.List.Infix

/-! Lexemes of scripts: how far a comment goes, and where its marks stand. -/

namespace Marginalia.Source

def closer : Text := ['*', '/']

variable {body rest : Text}

lemma closer_notInfix_cons {c : Char} (h : ¬closer <:+: c :: body) : ¬closer <:+: body := fun hb =>
  h (List.infix_cons_iff.mpr (.inr hb))

lemma closer_notInfix_append {c : Char} (body rest : Text) (hc : c ≠ '*' ∧ c ≠ '/')
    (ha : ¬closer <:+: body) (hb : ¬closer <:+: rest) : ¬closer <:+: body ++ c :: rest := by
  induction body with
  | nil =>
    rw [List.nil_append, List.infix_cons_iff, not_or]
    exact ⟨by simp [closer, Ne.symm hc.1], hb⟩
  | cons d body ih =>
    rw [List.cons_append, List.infix_cons_iff, not_or]
    refine ⟨fun hp => ?_, ih (closer_notInfix_cons ha)⟩
    cases body with
    | nil => simp [closer, Ne.symm hc.2] at hp
    | cons e body =>
      apply ha
      rw [List.infix_cons_iff]
      exact .inl (by simpa [closer] using hp)

lemma blockExtent?_go {n : Nat} (h : ¬closer <:+: body) :
    blockExtent?.go n (body ++ '*' :: '/' :: rest) = some (n + body.length + 2) := by
  induction body generalizing n with
  | nil => simp [blockExtent?.go]
  | cons c body ih =>
    rw [List.cons_append]
    unfold blockExtent?.go
    split
    · next tail htail =>
      cases body with
      | nil => simp at htail
      | cons d body =>
        rw [List.cons_append, List.cons.injEq] at htail
        exact absurd (List.infix_cons_iff.mpr (.inl (by simp [closer, htail.1]))) h
    · rw [ih (closer_notInfix_cons h), List.length_cons, Option.some.injEq]
      omega

lemma blockExtent?_append (h : ¬closer <:+: body) :
    blockExtent? (body ++ '*' :: '/' :: rest) = some (body.length + 2) := by
  rw [blockExtent?, blockExtent?_go h, Nat.zero_add]

lemma step_blockComment {d : Dialect} {c : Context} (hc : c.frames = []) (h : ¬closer <:+: body) :
    c.step d '/' ('*' :: (body ++ '*' :: '/' :: rest)) = ⟨.blockComment, body.length + 3, c⟩ := by
  have hgap : isGap '/' = false := by decide
  simp only [Context.step, hc, Context.codeStep, hgap, Context.opensInterpreterLine,
    Context.commentStep?, blockExtent?_append h]
  simp
  omega

lemma scan_blockComment (d : Dialect) (h : ¬closer <:+: body) :
    Lexeme.scan d ('/' :: '*' :: (body ++ closer)) =
      [⟨.blockComment, '/' :: '*' :: (body ++ closer), {},
        Mark.advance {} ('/' :: '*' :: (body ++ closer)), 0⟩] := by
  have hs : Context.initial.step d '/' ('*' :: (body ++ closer)) =
      ⟨.blockComment, body.length + 3, .initial⟩ := step_blockComment rfl h
  have hlen : ('*' :: (body ++ closer)).length = body.length + 3 := by simp [closer]
  have htake : ('*' :: (body ++ closer)).take (body.length + 3) = '*' :: (body ++ closer) :=
    List.take_of_length_le hlen.le
  have hdrop : ('*' :: (body ++ closer)).drop (body.length + 3) = [] :=
    List.drop_of_length_le hlen.le
  rw [Lexeme.scan, Lexeme.scanFrom]
  simp only [hs, Lexeme.ofStep, htake, hdrop, Lexeme.scanFrom]
  rfl

lemma undelimit_blockComment : undelimit ('/' :: '*' :: (body ++ closer)) = (.block, body) := by
  have ha : Text.after? ['/', '*'] ('/' :: '*' :: (body ++ closer)) = some (body ++ closer) := by
    simp [Text.after?, List.isPrefixOf?]
  have hs : (['*', '/'] : Text).isSuffixOf? (body ++ closer) = some body :=
    List.isSuffixOf?_eq_some_iff_append_eq.mpr rfl
  rw [undelimit, ha]
  simp [hs]

namespace Mark

@[simp] lemma advance_row (m : Mark) (t : Text) : (m.advance t).row = m.row + t.count '\n' := by
  induction t generalizing m with
  | nil => rfl
  | cons c t ih =>
    rw [advance, List.foldl_cons, ← advance, ih, step, List.count_cons]
    by_cases hc : c = '\n'
    · simp [hc]
      omega
    · simp [hc]

end Mark

lemma rawComment_blockComment (m : Mark) (depth : Nat) :
    (Lexeme.mk .blockComment ('/' :: '*' :: (body ++ closer)) m
      (m.advance ('/' :: '*' :: (body ++ closer))) depth).rawComment =
    ⟨body, m.line, m.line + body.count '\n', some ⟨.block,
      (m.offset, (m.advance ('/' :: '*' :: (body ++ closer))).offset),
      ⟨m.position, (m.advance ('/' :: '*' :: (body ++ closer))).position⟩⟩⟩ := by
  have hcount : ('/' :: '*' :: (body ++ closer)).count '\n' = body.count '\n' := by simp [closer]
  have hline : (m.advance ('/' :: '*' :: (body ++ closer))).line = m.line + body.count '\n' := by
    rw [Mark.line, Mark.line, Mark.advance_row, hcount]
    omega
  simp only [Lexeme.rawComment, undelimit_blockComment, hline]

lemma comments_blockComment (d : Dialect) (h : ¬closer <:+: body) :
    ∃ node, comments d ('/' :: '*' :: (body ++ closer)) = [⟨body, 1, 1 + body.count '\n', node⟩] := by
  rw [comments_eq_map_filter, scan_blockComment d h]
  exact ⟨_, congrArg (fun raw => [raw]) (rawComment_blockComment {} 0)⟩

end Marginalia.Source
