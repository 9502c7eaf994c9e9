import Marginalia.Proofs.Comment.WellFormed
import Marginalia.Proofs.Json.Tokens
import Marginalia.Report.Text
import Mathlib.Data.List.Forall2

/-! The text report on one file. Its headings, lines and tags are told apart by how they start, so it says all of
a comment but where the comment stands. -/

namespace Marginalia

namespace Text

lemma append_inj_of_head {α : Type} {q : α → Prop} {a b r s : List α} (ha : ∀ x ∈ a, ¬q x) (hb : ∀ x ∈ b, ¬q x)
    (hr : ∀ x ∈ r.head?, q x) (hs : ∀ x ∈ s.head?, q x) (h : a ++ r = b ++ s) : a = b ∧ r = s := by
  induction a generalizing b with
  | nil =>
    cases b with
    | nil => exact ⟨rfl, h⟩
    | cons y b =>
      rw [List.nil_append] at h
      exact absurd (hr y (by simp [h])) (hb y List.mem_cons_self)
  | cons x a ih =>
    cases b with
    | nil =>
      rw [List.nil_append] at h
      exact absurd (hs x (by simp [← h])) (ha x List.mem_cons_self)
    | cons y b =>
      rw [List.forall_mem_cons] at ha hb
      rw [List.cons_append, List.cons_append, List.cons.injEq] at h
      obtain ⟨rfl, h⟩ := h
      obtain ⟨rfl, hrs⟩ := ih ha.2 hb.2 h
      exact ⟨rfl, hrs⟩

lemma notMem_numeral {c : Char} (h : c.isDigit = false) (n : Nat) : c ∉ numeral n := by
  intro hc
  simp [isDigit_of_mem_numeral hc] at h

lemma numeral_append_inj {m n : Nat} {r s : Text} (hr : ∀ c ∈ r.head?, c.isDigit = false)
    (hs : ∀ c ∈ s.head?, c.isDigit = false) (h : numeral m ++ r = numeral n ++ s) : m = n ∧ r = s := by
  have hdigits (k : Nat) : ∀ c ∈ numeral k, ¬c.isDigit = false := fun c hc hd => notMem_numeral hd k hc
  obtain ⟨hmn, hrs⟩ := append_inj_of_head (hdigits m) (hdigits n) hr hs h
  refine ⟨?_, hrs⟩
  rw [← ofDigits_numeral m, hmn, ofDigits_numeral]

lemma splitOn_flatMap_lines {lines : List Text} (h : ∀ line ∈ lines, '\n' ∉ line) :
    (lines.flatMap fun line => line ++ ['\n']).splitOn '\n' = lines ++ [[]] := by
  induction lines with
  | nil => rfl
  | cons line lines ih =>
    rw [List.forall_mem_cons] at h
    have hcons : ((line :: lines).flatMap fun line => line ++ ['\n']) =
        line ++ '\n' :: lines.flatMap fun line => line ++ ['\n'] := by simp
    rw [hcons, List.splitOn_append_cons_self_of_not_mem h.1, ih h.2, List.cons_append]

end Text

namespace Report

variable {c d : Comment} {cs ds : List Comment}

lemma bounds_inj (h : bounds c = bounds d) :
    c.startLine = d.startLine ∧ c.endLine = d.endLine ∧ c.isDoc = d.isDoc := by
  simp only [bounds, List.append_assoc, List.cons_append, List.append_cancel_left_eq] at h
  obtain ⟨hstart, h⟩ := Text.numeral_append_inj (by simp) (by simp) h
  have hdoc (b : Bool) : ∀ x ∈ (if b then Text.lit " doc" else []).head?, x.isDigit = false := by
    cases b <;> simp [Text.lit]
  obtain ⟨hend, h⟩ := Text.numeral_append_inj (hdoc _) (hdoc _) (List.cons.inj h).2
  refine ⟨hstart, hend, ?_⟩
  cases hc : c.isDoc <;> cases hd : d.isDoc <;> simp [hc, hd, Text.lit] at h ⊢

def Heads (line : Text) : Prop := Text.lit "  L" <+: line

def Tagged (line : Text) : Prop := Text.lit "    @" <+: line

def tagged (tag : Tag) : Text := Text.lit "    " ++ tag.toLine

lemma heads_bounds (c : Comment) : Heads (bounds c) := by
  simp only [Heads, bounds, List.append_assoc]
  exact List.prefix_append _ _

lemma not_heads_indented (line : Text) : ¬Heads (indented line) := by
  unfold indented
  split <;> simp [Heads, Text.lit]

lemma not_heads_tagged (tag : Tag) : ¬Heads (tagged tag) := by
  simp [Heads, tagged, Text.lit]

lemma tagged_tagged (tag : Tag) : Tagged (tagged tag) := by
  obtain ⟨name, value | _⟩ := tag <;> simp [Tagged, tagged, Tag.toLine, Text.lit]

lemma not_tagged_indented {line : Text} (h : line.head? ≠ some '@') : ¬Tagged (indented line) := by
  cases line with
  | nil => simp [Tagged, indented, Text.lit]
  | cons e line =>
    have he : e ≠ '@' := by simpa using h
    simp [Tagged, indented, Text.lit, Ne.symm he]

lemma indented_injective : Function.Injective indented := by
  intro l m h
  cases l with
  | nil =>
    cases m with
    | nil => rfl
    | cons => simp [indented, Text.lit] at h
  | cons =>
    cases m with
    | nil => simp [indented, Text.lit] at h
    | cons => exact List.append_cancel_left h

structure Legible (c : Comment) : Prop where
  lines_single : ∀ l ∈ c.lines, '\n' ∉ l
  lines_untagged : ∀ l ∈ c.lines, l.head? ≠ some '@'
  tags_single : ∀ t ∈ c.tags, '\n' ∉ t.toLine
  tags_tidy : ∀ t ∈ c.tags, t.Tidy

lemma tags_inj (hc : ∀ t ∈ c.tags, t.Tidy) (hd : ∀ t ∈ d.tags, t.Tidy)
    (h : c.tags.map tagged = d.tags.map tagged) : c.tags = d.tags := by
  have hread (e : Comment) (he : ∀ t ∈ e.tags, t.Tidy) :
      (e.tags.map tagged).map (fun line => Tag.ofLine? (line.drop 4)) = e.tags.map some := by
    rw [List.map_map]
    apply List.map_congr_left
    intro t ht
    exact Tag.ofLine?_toLine (he t ht)
  apply List.map_injective_iff.mpr fun _ _ => Option.some.inj
  rw [← hread c hc, h, hread d hd]

lemma body_inj (hc : Legible c) (hd : Legible d)
    (h : c.lines.map indented ++ c.tags.map tagged = d.lines.map indented ++ d.tags.map tagged) :
    c.lines = d.lines ∧ c.tags = d.tags := by
  have hlines (e : Comment) (he : Legible e) : ∀ line ∈ e.lines.map indented, ¬Tagged line := by
    intro line hm
    obtain ⟨l, hl, rfl⟩ := List.mem_map.mp hm
    exact not_tagged_indented (he.lines_untagged l hl)
  have htags (e : Comment) : ∀ line ∈ (e.tags.map tagged).head?, Tagged line := by
    intro line hl
    obtain ⟨t, -, rfl⟩ := List.mem_map.mp (List.mem_of_head? hl)
    exact tagged_tagged t
  obtain ⟨hl, ht⟩ := Text.append_inj_of_head (hlines c hc) (hlines d hd) (htags c) (htags d) h
  exact ⟨List.map_injective_iff.mpr indented_injective hl, tags_inj hc.tags_tidy hd.tags_tidy ht⟩

structure SameContent (c d : Comment) : Prop where
  startLine : c.startLine = d.startLine
  endLine : c.endLine = d.endLine
  isDoc : c.isDoc = d.isDoc
  lines : c.lines = d.lines
  tags : c.tags = d.tags

lemma SameContent.commentLines (h : SameContent c d) : commentLines c = commentLines d := by
  simp only [Report.commentLines, bounds, h.startLine, h.endLine, h.isDoc, h.lines, h.tags]

lemma comments_inj (hc : ∀ c ∈ cs, Legible c) (hd : ∀ d ∈ ds, Legible d)
    (h : cs.flatMap commentLines = ds.flatMap commentLines) : List.Forall₂ SameContent cs ds := by
  have hbody (e : Comment) : ∀ line ∈ e.lines.map indented ++ e.tags.map tagged, ¬Heads line := by
    intro line hl
    rcases List.mem_append.mp hl with hl | hl
    · obtain ⟨l, -, rfl⟩ := List.mem_map.mp hl
      exact not_heads_indented l
    · obtain ⟨t, -, rfl⟩ := List.mem_map.mp hl
      exact not_heads_tagged t
  have hhead (es : List Comment) : ∀ line ∈ (es.flatMap commentLines).head?, Heads line := by
    intro line hl
    cases es with
    | nil => simp at hl
    | cons e es =>
      obtain rfl : bounds e = line := by simpa [commentLines] using hl
      exact heads_bounds e
  induction cs generalizing ds with
  | nil =>
    cases ds with
    | nil => exact .nil
    | cons => simp [commentLines] at h
  | cons c cs ih =>
    cases ds with
    | nil => simp [commentLines] at h
    | cons d ds =>
      rw [List.forall_mem_cons] at hc hd
      rw [List.flatMap_cons, List.flatMap_cons] at h
      obtain ⟨hbounds, h⟩ := List.cons.inj h
      obtain ⟨hb, hrest⟩ := Text.append_inj_of_head (hbody c) (hbody d) (hhead cs) (hhead ds) h
      obtain ⟨hstart, hend, hdoc⟩ := bounds_inj hbounds
      obtain ⟨hlines, htags⟩ := body_inj hc.1 hd.1 hb
      exact .cons ⟨hstart, hend, hdoc, hlines, htags⟩ (ih hc.2 hd.2 hrest)

lemma commentLines_single (hlines : ∀ l ∈ c.lines, '\n' ∉ l) (htags : ∀ t ∈ c.tags, '\n' ∉ t.toLine) :
    ∀ line ∈ commentLines c, '\n' ∉ line := by
  have hb : '\n' ∉ bounds c := by
    have hn := Text.notMem_numeral (c := '\n') (by decide)
    cases hd : c.isDoc <;> simp [bounds, hd, hn, Text.lit]
  intro line hl
  rw [commentLines, List.cons_append, List.mem_cons, List.mem_append, List.mem_map, List.mem_map] at hl
  obtain rfl | ⟨l, hl, rfl⟩ | ⟨t, ht, rfl⟩ := hl
  · exact hb
  · have hs := hlines l hl
    unfold indented
    split <;> simp [Text.lit, hs]
  · simpa [Text.lit] using htags t ht

lemma text_singleton_eq (f : Text) (cs : List Comment) :
    text [⟨f, cs⟩] = f ++ (Text.lit " (" ++ (Text.numeral cs.length ++ (Text.lit " comments)\n" ++
      (cs.flatMap commentLines).flatMap fun line => line ++ ['\n']))) := by
  simp [text, fileLines, heading, Text.lit]

lemma text_singleton_inj {f : Text} (hc : ∀ c ∈ cs, Legible c) (hd : ∀ d ∈ ds, Legible d) :
    text [⟨f, cs⟩] = text [⟨f, ds⟩] ↔ List.Forall₂ SameContent cs ds := by
  have hsingle (es : List Comment) (he : ∀ e ∈ es, Legible e) :
      ∀ line ∈ es.flatMap commentLines, '\n' ∉ line := by
    intro line hl
    obtain ⟨e, hm, hl⟩ := List.mem_flatMap.mp hl
    exact commentLines_single (he e hm).lines_single (he e hm).tags_single line hl
  rw [text_singleton_eq, text_singleton_eq, List.append_cancel_left_eq, List.append_cancel_left_eq]
  constructor
  · intro h
    obtain ⟨-, h⟩ := Text.numeral_append_inj (by simp [Text.lit]) (by simp [Text.lit]) h
    have hlines := congrArg (List.splitOn '\n') (List.append_cancel_left h)
    rw [Text.splitOn_flatMap_lines (hsingle cs hc), Text.splitOn_flatMap_lines (hsingle ds hd)] at hlines
    exact comments_inj hc hd (List.append_cancel_right hlines)
  · intro h
    have hlines : cs.flatMap commentLines = ds.flatMap commentLines := by
      clear hc hd
      induction h with
      | nil => rfl
      | cons hcd _ ih => rw [List.flatMap_cons, List.flatMap_cons, hcd.commentLines, ih]
    rw [h.length_eq, hlines]

end Report

namespace RawComment

variable {raw : RawComment} {settings : Settings}

lemma notMem_of_mem_lines {l : Text} (h : l ∈ (raw.assemble settings).lines) : '\n' ∉ l :=
  Body.notMem_of_mem_normalize (mem_cleanLines h)

lemma notMem_toLine_of_mem_tags {t : Tag} (h : t ∈ (raw.assemble settings).tags) : '\n' ∉ t.toLine := by
  obtain ⟨line, hl, hline⟩ := exists_line_of_mem_tags h
  have hn := Body.notMem_of_mem_normalize hl
  obtain ⟨hname, hvalue⟩ := Tag.mem_of_ofLine? (c := '\n') hline
  obtain ⟨name, v | _⟩ := t
  · simpa [Tag.toLine] using ⟨fun h => hn (hname h), fun h => hn (hvalue v rfl h)⟩
  · simpa [Tag.toLine] using fun h => hn (hname h)

lemma legible_assemble (raw : RawComment) (hp : settings.parseTags = true)
    (hr : settings.removeTagLines = true) : Report.Legible (raw.assemble settings) where
  lines_single _ := notMem_of_mem_lines
  lines_untagged l h := by
    rw [assemble_lines_removed raw settings hp hr] at h
    exact Tag.untagged_of_mem_strip_filter h
  tags_single _ := notMem_toLine_of_mem_tags
  tags_tidy t ht := by
    obtain ⟨line, -, hline⟩ := exists_line_of_mem_tags ht
    exact Tag.ofLine?_tidy hline

end RawComment

namespace Report

def Assembled (c : Comment) : Prop :=
  ∃ (raw : RawComment) (settings : Settings), settings.parseTags = true ∧ settings.removeTagLines = true ∧
    raw.assemble settings = c

lemma Assembled.legible {c : Comment} (h : Assembled c) : Legible c := by
  obtain ⟨raw, settings, hp, hr, rfl⟩ := h
  exact raw.legible_assemble hp hr

theorem text_determines_content (f : Text) (cs ds : List Comment) (hc : ∀ c ∈ cs, Assembled c)
    (hd : ∀ d ∈ ds, Assembled d) :
    text [⟨f, cs⟩] = text [⟨f, ds⟩] ↔ List.Forall₂ SameContent cs ds :=
  text_singleton_inj (fun c h => (hc c h).legible) (fun d h => (hd d h).legible)

def sampleSettings (includeNode : Bool) (trim : TrimPolicy) : Settings := ⟨includeNode, true, true, trim⟩

def sampleBare : Comment :=
  RawComment.assemble ⟨Text.lit "x\n@t v", 1, 2, none⟩ (sampleSettings false .untouched)

def samplePlaced : Comment :=
  RawComment.assemble ⟨Text.lit " x\r\n @t  v ", 1, 2, some ⟨.block, (0, 15), ⟨1, 0⟩, ⟨2, 8⟩⟩⟩
    (sampleSettings true .full)

theorem text_determines_content_sample :
    text [⟨Text.lit "a.js", [sampleBare]⟩] = Text.lit "a.js (1 comments)\n  L1-2\n    x\n    @t v\n" ∧
      sampleBare ≠ samplePlaced ∧ List.Forall₂ SameContent [sampleBare] [samplePlaced] := by
  have hbare : Assembled sampleBare := ⟨_, sampleSettings false .untouched, rfl, rfl, rfl⟩
  have hplaced : Assembled samplePlaced := ⟨_, sampleSettings true .full, rfl, rfl, rfl⟩
  have htext : text [⟨Text.lit "a.js", [sampleBare]⟩] = text [⟨Text.lit "a.js", [samplePlaced]⟩] := by decide
  refine ⟨by decide, by decide, ?_⟩
  exact (text_determines_content (Text.lit "a.js") [sampleBare] [samplePlaced]
    (by simpa using hbare) (by simpa using hplaced)).mp htext

end Report

end Marginalia
