import Marginalia.Proofs.Source.Places

/-! Scripts that are made of comments and blanks only. Each comment is read back from where it stands, whatever
its body looks like and however close the next one is. -/

namespace Marginalia.Source

inductive Piece where
  | block (body : Text)
  | line (body : Text)

namespace Piece

def kind : Piece → CommentKind
  | block _ => .block
  | line _ => .line

def body : Piece → Text
  | block body => body
  | line body => body

def text : Piece → Text
  | block body => Text.lit "/*" ++ body ++ Text.lit "*/"
  | line body => Text.lit "//" ++ body

/-- A block ends at its first closing, and a line comment where its line does. -/
def Fits : Piece → Text → Prop
  | block body, _ => ¬Text.lit "*/" <:+: body
  | line body, rest => (∀ c ∈ ['\n', '\r', '\u2028', '\u2029'], c ∉ body) ∧
      (rest = [] ∨ ['\n'] <+: rest ∨ ['\r', '\n'] <+: rest)

instance decidableFits : (piece : Piece) → (rest : Text) → Decidable (piece.Fits rest)
  | block body, _ => inferInstanceAs (Decidable (¬Text.lit "*/" <:+: body))
  | line body, rest =>
    have := List.decidableBAll (· ∉ body) ['\n', '\r', '\u2028', '\u2029']
    inferInstanceAs (Decidable ((∀ c ∈ ['\n', '\r', '\u2028', '\u2029'], c ∉ body) ∧
      (rest = [] ∨ ['\n'] <+: rest ∨ ['\r', '\n'] <+: rest)))

end Piece

inductive Blank where
  | space
  | tab
  | lf
  | crlf

def Blank.text : Blank → Text
  | space => [' ']
  | tab => ['\t']
  | lf => ['\n']
  | crlf => ['\r', '\n']

def gapText (blanks : List Blank) : Text := blanks.flatMap Blank.text

def script : List (List Blank × Piece) → List Blank → Text
  | [], last => gapText last
  | (blanks, piece) :: items, last => gapText blanks ++ (piece.text ++ script items last)

def Fit : List (List Blank × Piece) → List Blank → Prop
  | [], _ => True
  | (_, piece) :: items, last => piece.Fits (script items last) ∧ Fit items last

instance decidableFit : (items : List (List Blank × Piece)) → (last : List Blank) → Decidable (Fit items last)
  | [], _ => isTrue trivial
  | (_, piece) :: items, last =>
    have := decidableFit items last
    inferInstanceAs (Decidable (piece.Fits (script items last) ∧ Fit items last))

def records (before : Text) : List (List Blank × Piece) → List RawComment
  | [] => []
  | (blanks, piece) :: items =>
    recorded piece.kind piece.body (before ++ gapText blanks) piece.text ::
      records (before ++ gapText blanks ++ piece.text) items

lemma isGap_of_mem_gapText {blanks : List Blank} : ∀ c ∈ gapText blanks, isGap c = true := by
  have hblank : ∀ b : Blank, b.text.all isGap = true := by
    intro b
    cases b <;> rfl
  intro c hc
  obtain ⟨b, -, hb⟩ := List.mem_flatMap.mp hc
  exact List.all_eq_true.mp (hblank b) c hb

lemma runLength_append {p : Char → Bool} {t rest : Text} (ht : ∀ c ∈ t, p c = true)
    (hr : ∀ c ∈ rest.head?, p c = false) : runLength p (t ++ rest) = t.length := by
  have hrest : rest.takeWhile p = [] := by
    cases rest with
    | nil => rfl
    | cons c rest => simp [hr c rfl]
  rw [runLength, List.takeWhile_append_of_pos ht, hrest, List.append_nil]

section Steps

variable {d : Dialect} {c : Context} (hc : c.frames = [])

include hc

lemma step_lineComment {body rest : Text} (hb : ∀ x ∈ body, isLineEnd x = false)
    (hr : ∀ x ∈ rest.head?, isLineEnd x = true) :
    c.step d '/' ('/' :: (body ++ rest)) = ⟨.lineComment, body.length + 1, c⟩ := by
  have hgap : isGap '/' = false := by decide
  have hrun : runLength (fun x => !isLineEnd x) (body ++ rest) = body.length :=
    runLength_append (by simpa using hb) (by simpa using hr)
  simp only [Context.step, hc, Context.codeStep, hgap, Context.opensInterpreterLine, Context.commentStep?, hrun]
  simp [Nat.add_comm]

lemma step_gap {ch : Char} {t rest : Text} (ht : ∀ x ∈ ch :: t, isGap x = true)
    (hr : ∀ x ∈ rest.head?, isGap x = false) :
    c.step d ch (t ++ rest) = ⟨.gap, t.length, c.gap (ch :: t)⟩ := by
  rw [List.forall_mem_cons] at ht
  simp only [Context.step, hc, Context.codeStep, ht.1, if_true, Context.gapStep, runLength_append ht.2 hr,
    List.take_left]

end Steps

lemma isLineEnd_iff {x : Char} : isLineEnd x = true ↔ x ∈ ['\n', '\r', '\u2028', '\u2029'] := by
  simp [isLineEnd, or_assoc]

def commentsFrom (d : Dialect) (c : Context) (before rest : Text) : List RawComment :=
  ((Lexeme.scanFrom d c (.after before) [] rest).filter (·.kind.isComment)).map Lexeme.rawComment

section Reading

variable {d : Dialect} {c next : Context} {before t rest : Text} {ch : Char} {kind : LexemeKind}

lemma scanFrom_step (h : c.step d ch (t ++ rest) = ⟨kind, t.length, next⟩) :
    Lexeme.scanFrom d c (.after before) [] (ch :: (t ++ rest)) =
      ⟨kind, ch :: t, .after before, .after (before ++ ch :: t), next.frames.length⟩ ::
        Lexeme.scanFrom d next (.after (before ++ ch :: t)) [] rest := by
  rw [Lexeme.scanFrom_cons, h, Lexeme.ofStep, List.take_left, List.drop_left, ← Mark.after_append]

lemma commentsFrom_comment (hk : kind.isComment = true)
    (h : c.step d ch (t ++ rest) = ⟨kind, t.length, next⟩) :
    commentsFrom d c before (ch :: (t ++ rest)) =
      recorded (undelimit (ch :: t)).1 (undelimit (ch :: t)).2 before (ch :: t) ::
        commentsFrom d next (before ++ ch :: t) rest := by
  rw [commentsFrom, scanFrom_step h, List.filter_cons_of_pos (by exact hk), List.map_cons,
    Lexeme.rawComment_eq_recorded rfl rfl]
  rfl

lemma commentsFrom_other (hk : kind.isComment = false)
    (h : c.step d ch (t ++ rest) = ⟨kind, t.length, next⟩) :
    commentsFrom d c before (ch :: (t ++ rest)) = commentsFrom d next (before ++ ch :: t) rest := by
  rw [commentsFrom, scanFrom_step h, List.filter_cons_of_neg (by simp [hk])]
  rfl

variable (hc : c.frames = [])

include hc

lemma commentsFrom_gap (ht : ∀ x ∈ t, isGap x = true) (hr : ∀ x ∈ rest.head?, isGap x = false) :
    ∃ next : Context, next.frames = [] ∧
      commentsFrom d c before (t ++ rest) = commentsFrom d next (before ++ t) rest := by
  cases t with
  | nil => exact ⟨c, hc, by rw [List.nil_append, List.append_nil]⟩
  | cons ch t => exact ⟨c.gap (ch :: t), hc, commentsFrom_other rfl (step_gap hc ht hr)⟩

lemma commentsFrom_block {body : Text} (h : (Piece.block body).Fits rest) :
    commentsFrom d c before ((Piece.block body).text ++ rest) =
      recorded .block body before (Piece.block body).text ::
        commentsFrom d c (before ++ (Piece.block body).text) rest := by
  have hs : c.step d '/' (('*' :: (body ++ closer)) ++ rest) =
      ⟨.blockComment, ('*' :: (body ++ closer)).length, c⟩ := by
    have happend : ('*' :: (body ++ closer)) ++ rest = '*' :: (body ++ '*' :: '/' :: rest) := by simp [closer]
    have hlength : ('*' :: (body ++ closer)).length = body.length + 3 := by simp [closer]
    rw [happend, hlength]
    exact step_blockComment hc h
  have hcomment := @commentsFrom_comment d c c before _ rest _ _ rfl hs
  rw [undelimit_blockComment] at hcomment
  exact hcomment

lemma commentsFrom_line {body : Text} (h : (Piece.line body).Fits rest) :
    commentsFrom d c before ((Piece.line body).text ++ rest) =
      recorded .line body before (Piece.line body).text ::
        commentsFrom d c (before ++ (Piece.line body).text) rest := by
  obtain ⟨hb, hr⟩ := h
  have hbody : ∀ x ∈ body, isLineEnd x = false := by
    intro x hx
    rw [Bool.eq_false_iff]
    intro hend
    exact hb x (isLineEnd_iff.mp hend) hx
  have hrest : ∀ x ∈ rest.head?, isLineEnd x = true := by
    rcases hr with rfl | ⟨t, rfl⟩ | ⟨t, rfl⟩
    · simp
    · rintro x ⟨⟩
      rfl
    · rintro x ⟨⟩
      rfl
  have hcomment := @commentsFrom_comment d c c before ('/' :: body) rest '/' _ rfl (step_lineComment hc hbody hrest)
  have hundelimit : undelimit ('/' :: '/' :: body) = (.line, body) := by
    have hcr : body.getLast? ≠ some '\r' := fun hl => hb '\r' (by decide) (List.mem_of_getLast? hl)
    have hopening := @undelimit_opening (Text.lit "//") body List.mem_cons_self
    rwa [Text.dropFinal, if_neg hcr] at hopening
  rw [hundelimit] at hcomment
  exact hcomment

lemma commentsFrom_piece {piece : Piece} (h : piece.Fits rest) :
    commentsFrom d c before (piece.text ++ rest) =
      recorded piece.kind piece.body before piece.text :: commentsFrom d c (before ++ piece.text) rest := by
  cases piece with
  | block body => exact commentsFrom_block hc h
  | line body => exact commentsFrom_line hc h

end Reading

lemma commentsFrom_script {d : Dialect} {c : Context} {before : Text} {items : List (List Blank × Piece)}
    {last : List Blank} (hc : c.frames = []) (h : Fit items last) :
    commentsFrom d c before (script items last) = records before items := by
  induction items generalizing c before with
  | nil =>
    obtain ⟨next, -, hgap⟩ := @commentsFrom_gap d c before (gapText last) [] hc isGap_of_mem_gapText (by simp)
    rw [List.append_nil] at hgap
    rw [script, hgap, commentsFrom, Lexeme.scanFrom]
    rfl
  | cons item items ih =>
    obtain ⟨blanks, piece⟩ := item
    have hslash : ∀ x ∈ (piece.text ++ script items last).head?, isGap x = false := by
      cases piece <;> rintro x ⟨⟩ <;> decide
    -- A gap can change the context. That no frame is open is what carries over to the next comment.
    obtain ⟨next, hnext, hgap⟩ := commentsFrom_gap hc (@isGap_of_mem_gapText blanks) hslash
    rw [script, hgap, commentsFrom_piece hnext h.1, ih hnext h.2]
    rfl

theorem comments_script (d : Dialect) (items : List (List Blank × Piece)) (last : List Blank) (h : Fit items last) :
    (Language.ofDialect d).comments (script items last) = .ok (records [] items) := by
  have hcomments : comments d (script items last) = records [] items := by
    rw [comments_eq_map_filter]
    exact @commentsFrom_script d .initial [] items last rfl h
  exact congrArg Except.ok hcomments

def sampleItems : List (List Blank × Piece) :=
  [([.lf], .block ['/']), ([], .block ['*']), ([.tab], .line (Text.lit " /* 'é")),
    ([.crlf, .space], .block (Text.lit "// \x60\n")), ([], .line (Text.lit "end"))]

theorem comments_script_sample :
    Fit sampleItems [] ∧
      (Language.ofDialect .tsx).comments (Text.lit "\n/*/*//***/\t// /* 'é\r\n /*// \x60\n*///end") =
        .ok [⟨['/'], 2, 2, some ⟨.block, (1, 6), ⟨⟨2, 0⟩, ⟨2, 5⟩⟩⟩⟩,
          ⟨['*'], 2, 2, some ⟨.block, (6, 11), ⟨⟨2, 5⟩, ⟨2, 10⟩⟩⟩⟩,
          ⟨Text.lit " /* 'é", 2, 2, some ⟨.line, (12, 21), ⟨⟨2, 11⟩, ⟨2, 20⟩⟩⟩⟩,
          ⟨Text.lit "// \x60\n", 3, 4, some ⟨.block, (24, 33), ⟨⟨3, 1⟩, ⟨4, 2⟩⟩⟩⟩,
          ⟨Text.lit "end", 4, 4, some ⟨.line, (33, 38), ⟨⟨4, 2⟩, ⟨4, 7⟩⟩⟩⟩] := by
  have h : Fit sampleItems [] := by decide
  exact ⟨h, comments_script .tsx sampleItems [] h⟩

end Marginalia.Source
