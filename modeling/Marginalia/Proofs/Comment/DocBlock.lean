import Marginalia.Language.Basic
import Marginalia.Proofs.Comment.WellFormed
import Marginalia.Proofs.Source.Lexemes

/-! Documentation blocks as they are written: an opening line, one line for each text or tag, and a
closing line. Extraction gives back what was written. -/

namespace Marginalia.DocBlock

open Ends
open Body (LineEnd lined)
open Source (closer)

inductive Entry where
  | text (t : Text)
  | tag (tag : Tag)

namespace Entry

def content : Entry → Text
  | text t => t
  | tag t => t.toLine

def text? : Entry → Option Text
  | text t => some t
  | tag _ => none

def tag? : Entry → Option Tag
  | text _ => none
  | tag t => some t

def Writable : Entry → Prop
  | text t => Text.trim t = t ∧ '\n' ∉ t ∧ t.head? ≠ some '@' ∧ ¬closer <:+: t
  | tag t => t.Tidy ∧ ('\n' ∉ t.name ∧ ¬closer <:+: t.name) ∧
      ∀ v, t.value = .present v → '\n' ∉ v ∧ ¬closer <:+: v

end Entry

def written (opening : LineEnd) (body : List (Entry × LineEnd)) : Text :=
  Text.lit "/**" ++ opening.text ++
    body.flatMap (fun e => Text.lit " * " ++ e.1.content ++ e.2.text) ++ Text.lit " */"

def rows (opening : LineEnd) (body : List (Entry × LineEnd)) : List (Text × LineEnd) :=
  (['*'], opening) :: body.map fun e => (Text.lit " * " ++ e.1.content, e.2)

lemma written_eq (opening : LineEnd) (body : List (Entry × LineEnd)) :
    written opening body = '/' :: '*' :: (lined (rows opening body) [' '] ++ closer) := by
  have hlines : ∀ body : List (Entry × LineEnd),
      body.flatMap (fun e => Text.lit " * " ++ e.1.content ++ e.2.text) ++ Text.lit " */" =
        lined (body.map fun e => (Text.lit " * " ++ e.1.content, e.2)) [' '] ++ closer := by
    intro body
    induction body with
    | nil => rfl
    | cons e body ih =>
      rw [List.flatMap_cons, List.append_assoc, ih]
      simp [lined]
  rw [written, List.append_assoc, hlines]
  simp [rows, lined, Text.lit]

lemma trim_content {e : Entry} (h : e.Writable) : Text.trim e.content = e.content := by
  cases e with
  | text t => exact h.1
  | tag t => exact Tag.trim_toLine h.1

lemma content_single {e : Entry} (h : e.Writable) : '\n' ∉ e.content := by
  cases e with
  | text t => exact h.2.1
  | tag t =>
    obtain ⟨name, value⟩ := t
    cases value with
    | flag => simpa [Entry.content, Tag.toLine] using h.2.1.1
    | present v => simpa [Entry.content, Tag.toLine] using ⟨h.2.1.1, (h.2.2 v rfl).1⟩

lemma content_unclosed {e : Entry} (h : e.Writable) : ¬closer <:+: e.content := by
  cases e with
  | text t => exact h.2.2.2
  | tag t =>
    obtain ⟨name, value⟩ := t
    have hat : ¬closer <:+: '@' :: name :=
      Source.closer_notInfix_append [] name (by decide) (by decide) h.2.1.2
    cases value with
    | flag => exact hat
    | present v => exact Source.closer_notInfix_append _ _ (by decide) hat (h.2.2 v rfl).2

lemma ofLine?_content {e : Entry} (h : e.Writable) : Tag.ofLine? e.content = e.tag? := by
  cases e with
  | text t => exact Tag.ofLine?_eq_none_iff.mpr h.2.2.1
  | tag t => exact Tag.ofLine?_toLine h.1

lemma row_single {e : Entry} (h : e.Writable) : '\n' ∉ Text.lit " * " ++ e.content := by
  simpa [Text.lit] using content_single h

lemma row_last {e : Entry} (h : e.Writable) : (Text.lit " * " ++ e.content).getLast? ≠ some '\r' := by
  intro hl
  by_cases hc : e.content = []
  · simp [hc, Text.lit] at hl
  · rw [List.getLast?_append_of_ne_nil _ hc] at hl
    have hs := (Text.trim_eq_self_iff.mp (trim_content h)).2 '\r' hl
    exact absurd hs (by decide)

lemma row_unclosed {e : Entry} (h : e.Writable) : ¬closer <:+: Text.lit " * " ++ e.content :=
  Source.closer_notInfix_append [' ', '*'] _ (by decide) (by decide) (content_unclosed h)

lemma lined_unclosed {lines : List (Text × LineEnd)} {last : Text}
    (h : ∀ l ∈ lines, ¬closer <:+: l.1) (hl : ¬closer <:+: last) : ¬closer <:+: lined lines last := by
  induction lines with
  | nil => exact hl
  | cons l lines ih =>
    have hrest := ih fun k hk => h k (List.mem_cons_of_mem _ hk)
    have hline := h l List.mem_cons_self
    obtain ⟨line, lineEnd⟩ := l
    rw [lined, List.append_assoc]
    cases lineEnd with
    | lf => exact Source.closer_notInfix_append _ _ (by decide) hline hrest
    | crlf =>
      exact Source.closer_notInfix_append _ _ (by decide) hline
        (Source.closer_notInfix_append [] _ (by decide) (by decide) hrest)

lemma count_lined {lines : List (Text × LineEnd)} {last : Text} (h : ∀ l ∈ lines, '\n' ∉ l.1)
    (hl : '\n' ∉ last) : (lined lines last).count '\n' = lines.length := by
  induction lines with
  | nil => exact List.count_eq_zero.mpr hl
  | cons l lines ih =>
    have hrest := ih fun k hk => h k (List.mem_cons_of_mem _ hk)
    have hline := List.count_eq_zero.mpr (h l List.mem_cons_self)
    obtain ⟨line, lineEnd⟩ := l
    rw [lined, List.count_append, List.count_append, hrest, hline]
    cases lineEnd <;> simp [LineEnd.text, Nat.add_comm]

variable {opening : LineEnd} {body : List (Entry × LineEnd)}

lemma split_rows (h : ∀ e ∈ body, e.1.Writable) :
    Body.split (lined (rows opening body) [' ']) =
      ['*'] :: (body.map fun e => Text.lit " * " ++ e.1.content) ++ [[' ']] := by
  rw [Body.split_lined]
  · simp only [rows, List.map_cons, List.map_map]
    rfl
  · intro l hl
    rcases List.mem_cons.mp hl with rfl | hl
    · exact ⟨by simp, by simp⟩
    · obtain ⟨e, he, rfl⟩ := List.mem_map.mp hl
      exact ⟨row_single (h e he), row_last (h e he)⟩

lemma cleanLine_row {c : Text} (h : Text.trim c = c) :
    Body.cleanLine true .full (Text.lit " * " ++ c) = c := by
  have hm : Body.stripMarker (Text.lit " * " ++ c) = ' ' :: c := rfl
  rw [Body.cleanLine, if_pos rfl, hm, TrimPolicy.apply, Text.trim_cons_space (by decide), h]

lemma normalize_rows (h : ∀ e ∈ body, e.1.Writable) :
    Body.normalize (lined (rows opening body) [' ']) true .full =
      strip Text.isBlank (body.map fun e => e.1.content) := by
  have hrows : (body.map fun e => Text.lit " * " ++ e.1.content).map (Body.cleanLine true .full) =
      body.map fun e => e.1.content := by
    rw [List.map_map]
    exact List.map_congr_left fun e he => cleanLine_row (trim_content (h e he))
  rw [Body.normalize_eq_strip, split_rows h, List.map_append, List.map_cons, hrows]
  exact strip_append (a := [[]]) (b := [[]]) (by decide) (by decide)

lemma isDocBlock_rows (h : ∀ e ∈ body, e.1.Writable) :
    Body.isDocBlock (lined (rows opening body) [' ']) = true := by
  rw [Body.isDocBlock, split_rows h]
  rfl

lemma rows_unclosed (h : ∀ e ∈ body, e.1.Writable) : ¬closer <:+: lined (rows opening body) [' '] := by
  refine lined_unclosed (fun l hl => ?_) (by decide)
  rcases List.mem_cons.mp hl with rfl | hl
  · exact (by decide : ¬closer <:+: ['*'])
  · obtain ⟨e, he, rfl⟩ := List.mem_map.mp hl
    exact row_unclosed (h e he)

lemma count_rows (h : ∀ e ∈ body, e.1.Writable) :
    (lined (rows opening body) [' ']).count '\n' = body.length + 1 := by
  rw [count_lined]
  · simp [rows]
  · intro l hl
    rcases List.mem_cons.mp hl with rfl | hl
    · simp
    · obtain ⟨e, he, rfl⟩ := List.mem_map.mp hl
      exact row_single (h e he)
  · simp

lemma filterMap_ofLine?_contents (h : ∀ e ∈ body, e.1.Writable) :
    (body.map fun e => e.1.content).filterMap Tag.ofLine? = body.filterMap fun e => e.1.tag? := by
  rw [List.filterMap_map]
  exact List.filterMap_congr fun e he => ofLine?_content (h e he)

lemma filter_contents (h : ∀ e ∈ body, e.1.Writable) :
    (body.map fun e => e.1.content).filter (fun l => (Tag.ofLine? l).isNone) =
      body.filterMap fun e => e.1.text? := by
  induction body with
  | nil => rfl
  | cons e body ih =>
    have he := ofLine?_content (h e List.mem_cons_self)
    rw [List.map_cons, List.filter_cons, he, List.filterMap_cons,
      ih fun k hk => h k (List.mem_cons_of_mem _ hk)]
    obtain ⟨entry, lineEnd⟩ := e
    cases entry <;> rfl

theorem extract_written (opening : LineEnd) (body : List (Entry × LineEnd))
    (h : ∀ e ∈ body, e.1.Writable) :
    Language.default.extract (written opening body) {} =
      .ok [{
        startLine := 1
        endLine := body.length + 2
        lines := strip Text.isBlank (body.filterMap fun e => e.1.text?)
        isDoc := true
        tags := body.filterMap fun e => e.1.tag?
        node := none }] := by
  obtain ⟨node, hcomments⟩ := Source.comments_blockComment .javascript (rows_unclosed h)
  let raw : RawComment := ⟨lined (rows opening body) [' '], 1,
    1 + (lined (rows opening body) [' ']).count '\n', node⟩
  let settings : Settings := Options.resolve {}
  have hclean : raw.cleanLines settings = strip Text.isBlank (body.map fun e => e.1.content) := by
    rw [RawComment.cleanLines, Body.stripsMarkers, isDocBlock_rows h, Bool.true_or]
    exact normalize_rows h
  have hlines : (raw.assemble settings).lines = strip Text.isBlank (body.filterMap fun e => e.1.text?) := by
    rw [RawComment.assemble_lines_removed raw settings rfl rfl, hclean, strip_filter_strip,
      filter_contents h]
  have htags : (raw.assemble settings).tags = body.filterMap fun e => e.1.tag? := by
    rw [RawComment.assemble_tags raw settings rfl, hclean,
      filterMap_strip fun l hl => Tag.ofLine?_of_isBlank hl, filterMap_ofLine?_contents h]
  have hend : (raw.assemble settings).endLine = body.length + 2 := by
    change 1 + (lined (rows opening body) [' ']).count '\n' = body.length + 2
    rw [count_rows h]
    omega
  have hdoc : (raw.assemble settings).isDoc = true := isDocBlock_rows h
  have hextract : Language.default.extract (written opening body) {} = .ok [raw.assemble settings] := by
    rw [written_eq]
    exact congrArg (fun raws => Except.ok (RawComment.assembleAll raws settings)) hcomments
  rw [hextract, ← hlines, ← htags, ← hend, ← hdoc]
  rfl

def sampleBody : List (Entry × LineEnd) :=
  [(.text [], .lf), (.text (Text.lit "*bold* a\rb"), .crlf),
    (.tag ⟨[], .present (Text.lit "no name")⟩, .lf), (.text [], .crlf),
    (.text (Text.lit "last"), .lf), (.tag ⟨Text.lit "deprecated", .flag⟩, .crlf)]

theorem extract_written_sample :
    (∀ e ∈ sampleBody, e.1.Writable) ∧
      Language.default.extract
          (Text.lit "/**\r\n * \n * *bold* a\rb\r\n * @ no name\n * \r\n * last\n * @deprecated\r\n */") {} =
        .ok [{
          startLine := 1
          endLine := 8
          lines := [Text.lit "*bold* a\rb", [], Text.lit "last"]
          isDoc := true
          tags := [⟨[], .present (Text.lit "no name")⟩, ⟨Text.lit "deprecated", .flag⟩]
          node := none }] := by
  have h : ∀ e ∈ sampleBody, e.1.Writable := by
    simp only [sampleBody, List.forall_mem_cons, List.not_mem_nil, false_imp_iff, implies_true, and_true]
    refine ⟨?_, ?_, ?_, ?_, ?_, ?_⟩
    · exact ⟨by decide, by decide, by decide, by decide⟩
    · exact ⟨by decide, by decide, by decide, by decide⟩
    · refine ⟨⟨by decide, by decide, ?_⟩, ⟨by decide, by decide⟩, ?_⟩ <;> rintro v ⟨⟩ <;> decide
    · exact ⟨by decide, by decide, by decide, by decide⟩
    · exact ⟨by decide, by decide, by decide, by decide⟩
    · refine ⟨⟨by decide, by decide, ?_⟩, ⟨by decide, by decide⟩, ?_⟩ <;> rintro v ⟨⟩
  exact ⟨h, extract_written .crlf sampleBody h⟩

end Marginalia.DocBlock
