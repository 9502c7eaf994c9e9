import Marginalia.Proofs.Json.Tokens

/-! A value without decimals is read back from its printed text, compact or indented. Both texts have
the same tokens, and the machine that takes these tokens builds the value. -/

namespace Marginalia.Json

inductive Plain : Json → Prop
  | null : Plain .null
  | bool (b : Bool) : Plain (.bool b)
  | natural (n : Nat) : Plain (.natural n)
  | string (t : Text) : Plain (.string t)
  | array {items : List Json} : (∀ v ∈ items, Plain v) → Plain (.array items)
  | object {fields : List (Text × Json)} : (∀ f ∈ fields, Plain f.2) → Plain (.object fields)

mutual

def tokens : Json → List Token
  | null => [.null]
  | bool b => [.bool b]
  | natural n => [.natural n]
  | decimal l => [.decimal l]
  | string t => [.string t]
  | array items => .openArray :: itemTokens items ++ [.closeArray]
  | object fields => .openObject :: fieldTokens fields ++ [.closeObject]

def itemTokens : List Json → List Token
  | [] => []
  | [v] => tokens v
  | v :: vs => tokens v ++ .comma :: itemTokens vs

def fieldTokens : List (Text × Json) → List Token
  | [] => []
  | [(n, v)] => .string n :: .colon :: tokens v
  | (n, v) :: fields => .string n :: .colon :: tokens v ++ .comma :: fieldTokens fields

end

open Token

def Spells (t : Text) (ts : List Token) : Prop :=
  ∀ read rest, Delimited rest → readFrom? read (t ++ rest) = readFrom? (ts.reverse ++ read) rest

lemma delimited_cons {c : Char} {rest : List Char} (h : isNumberChar c = false) : Delimited (c :: rest) := by
  simpa [Delimited] using h

namespace Spells

variable {t u : Text} {ts us : List Token}

lemma nil : Spells [] [] := fun _ _ _ => rfl

lemma append (ht : Spells t ts) (hu : Spells u us) (hd : Delimited u) : Spells (t ++ u) (ts ++ us) := by
  intro read rest hr
  have hd' : Delimited (u ++ rest) := by
    cases u with
    | nil => exact hr
    | cons c u => exact hd
  rw [List.append_assoc, ht _ _ hd', hu _ _ hr, List.reverse_append, List.append_assoc]

lemma mark {c : Char} {token : Token} (hs : isSpace c = false) (hc : ∀ cs, Token.read? c cs = some (token, cs))
    (hu : Spells u us) : Spells (c :: u) (token :: us) := by
  intro read rest hr
  rw [List.cons_append, readFrom?_token hs (hc _), hu _ _ hr, List.reverse_cons, List.append_assoc]
  rfl

lemma comma (hu : Spells u us) : Spells (',' :: u) (.comma :: us) := hu.mark (by decide) fun _ => rfl

lemma colon (hu : Spells u us) : Spells (':' :: u) (.colon :: us) := hu.mark (by decide) fun _ => rfl

lemma spaces {s : Text} (hs : ∀ c ∈ s, isSpace c = true) (hu : Spells u us) : Spells (s ++ u) us := by
  intro read rest hr
  rw [List.append_assoc, readFrom?_spaces hs, hu _ _ hr]

lemma newLine (depth : Nat) (hu : Spells u us) : Spells (newLine depth ++ u) us := by
  intro read rest hr
  rw [List.append_assoc, readFrom?_newLine, hu _ _ hr]

lemma quote (n : Text) (hu : Spells u us) : Spells (quote n ++ u) (.string n :: us) := by
  intro read rest hr
  rw [List.append_assoc, readFrom?_quote, hu _ _ hr, List.reverse_cons, List.append_assoc]
  rfl

lemma ended {depth : Nat} (hu : Spells u us) : Spells (u ++ Json.newLine depth) us := by
  have hn : Spells (Json.newLine depth) [] := by simpa using nil.newLine depth
  simpa using hu.append hn (delimited_cons (by decide))

lemma brackets (hu : Spells u us) :
    Spells ('[' :: u ++ [']']) (.openArray :: us ++ [.closeArray]) := by
  have hclose : Spells [']'] [.closeArray] := nil.mark (by decide) fun _ => rfl
  exact (hu.append hclose (delimited_cons (by decide))).mark (by decide) fun _ => rfl

lemma braces (hu : Spells u us) :
    Spells ('\x7b' :: u ++ ['\x7d']) (.openObject :: us ++ [.closeObject]) := by
  have hclose : Spells ['\x7d'] [.closeObject] := nil.mark (by decide) fun _ => rfl
  exact (hu.append hclose (delimited_cons (by decide))).mark (by decide) fun _ => rfl

end Spells

lemma spells_compactItems {items : List Json} (h : ∀ v ∈ items, Spells (compact v) (tokens v)) :
    Spells (compactItems items) (itemTokens items) := by
  induction items with
  | nil => exact .nil
  | cons v vs ih =>
    have hv := h v List.mem_cons_self
    have hvs := ih fun w hw => h w (List.mem_cons_of_mem _ hw)
    cases vs with
    | nil => exact hv
    | cons w vs => exact hv.append hvs.comma (delimited_cons (by decide))

lemma spells_compactFields {fields : List (Text × Json)}
    (h : ∀ f ∈ fields, Spells (compact f.2) (tokens f.2)) :
    Spells (compactFields fields) (fieldTokens fields) := by
  induction fields with
  | nil => exact .nil
  | cons f fs ih =>
    have hv := h f List.mem_cons_self
    have hfs := ih fun g hg => h g (List.mem_cons_of_mem _ hg)
    obtain ⟨n, v⟩ := f
    cases fs with
    | nil => exact hv.colon.quote n
    | cons g fs =>
      have hf := (hv.append hfs.comma (delimited_cons (by decide))).colon.quote n
      simpa only [compactFields, fieldTokens, List.append_assoc, List.cons_append] using hf

lemma spells_compact {v : Json} (h : Plain v) : Spells (compact v) (tokens v) := by
  induction h with
  | null => exact fun _ _ _ => readFrom?_null
  | bool b => exact fun _ _ _ => readFrom?_bool b
  | natural n => exact fun _ _ hr => readFrom?_numeral n hr
  | string t => exact fun _ _ _ => readFrom?_quote t
  | array _ ih => exact (spells_compactItems ih).brackets
  | object _ ih => exact (spells_compactFields ih).braces

lemma spells_prettyItems {items : List Json} {depth : Nat}
    (h : ∀ v ∈ items, ∀ depth, Spells (pretty depth v) (tokens v)) :
    Spells (prettyItems depth items) (itemTokens items) := by
  induction items with
  | nil => exact .nil
  | cons v vs ih =>
    have hv := h v List.mem_cons_self depth
    have hvs := ih fun w hw => h w (List.mem_cons_of_mem _ hw)
    cases vs with
    | nil => exact hv.newLine depth
    | cons w vs =>
      have hi := (hv.append hvs.comma (delimited_cons (by decide))).newLine depth
      simpa only [prettyItems, itemTokens, List.append_assoc] using hi

lemma spells_prettyFields {fields : List (Text × Json)} {depth : Nat}
    (h : ∀ f ∈ fields, ∀ depth, Spells (pretty depth f.2) (tokens f.2)) :
    Spells (prettyFields depth fields) (fieldTokens fields) := by
  induction fields with
  | nil => exact .nil
  | cons f fs ih =>
    have hv := h f List.mem_cons_self depth
    have hfs := ih fun g hg => h g (List.mem_cons_of_mem _ hg)
    obtain ⟨n, v⟩ := f
    cases fs with
    | nil =>
      rw [prettyFields, fieldTokens, List.append_assoc]
      exact ((hv.spaces (s := [' ']) (List.forall_mem_singleton.mpr rfl)).colon.quote n).newLine depth
    | cons g fs =>
      have hp := hv.append hfs.comma (delimited_cons (by decide))
      have hf := ((hp.spaces (s := [' ']) (List.forall_mem_singleton.mpr rfl)).colon.quote n).newLine depth
      simpa only [prettyFields, fieldTokens, List.append_assoc, List.cons_append, List.nil_append] using hf

lemma spells_pretty {v : Json} (h : Plain v) (depth : Nat) : Spells (pretty depth v) (tokens v) := by
  induction h generalizing depth with
  | null => exact fun _ _ _ => readFrom?_null
  | bool b => exact fun _ _ _ => readFrom?_bool b
  | natural n => exact fun _ _ hr => readFrom?_numeral n hr
  | string t => exact fun _ _ _ => readFrom?_quote t
  | @array items _ ih =>
    cases items with
    | nil => exact Spells.nil.brackets
    | cons v vs => exact (spells_prettyItems ih).ended.brackets
  | @object fields _ ih =>
    cases fields with
    | nil => exact Spells.nil.braces
    | cons f fs => exact (spells_prettyFields ih).ended.braces

lemma spells_print {v : Json} (h : Plain v) (indented : Bool) : Spells (print indented v) (tokens v) := by
  cases indented with
  | false => exact spells_compact h
  | true => exact spells_pretty h 0

namespace ReaderState

variable {around : List OpenValue}

def run (s : ReaderState) (ts : List Token) : Option ReaderState := ts.foldlM next? s

lemma run_append (s : ReaderState) (ts us : List Token) : s.run (ts ++ us) = (s.run ts).bind (·.run us) :=
  List.foldlM_append

lemma run_cons (s : ReaderState) (t : Token) (ts : List Token) :
    s.run (t :: ts) = (s.next? t).bind (·.run ts) := rfl

def Builds (v : Json) : Prop := ∀ around, (value around).run (tokens v) = some (complete around v)

lemma run_arrayStart (v : Json) (ts : List Token) :
    (arrayStart around).run (tokens v ++ ts) = (value (.array [] :: around)).run (tokens v ++ ts) := by
  cases v <;> rfl

lemma run_items {v : Json} {vs : List Json} (h : ∀ w ∈ v :: vs, Builds w) (items : List Json) :
    (value (.array items :: around)).run (itemTokens (v :: vs) ++ [.closeArray]) =
      some (complete around (.array (items.reverse ++ v :: vs))) := by
  induction vs generalizing v items with
  | nil =>
    rw [run_append, itemTokens, h v List.mem_cons_self]
    simp [run, next?]
  | cons w vs ih =>
    have hi := ih (fun x hx => h x (List.mem_cons_of_mem _ hx)) (v :: items)
    have htokens : itemTokens (v :: w :: vs) ++ [.closeArray] =
        tokens v ++ .comma :: (itemTokens (w :: vs) ++ [.closeArray]) := by simp [itemTokens]
    rw [htokens, run_append, h v List.mem_cons_self, Option.bind_some, run_cons]
    simpa [next?] using hi

lemma run_field {v : Json} (h : Builds v) (n : Text) (fields : List (Text × Json)) (ts : List Token) :
    (name around fields).run (.string n :: .colon :: (tokens v ++ ts)) =
      (complete (.object fields n :: around) v).run ts := by
  have hv : (value (.object fields n :: around)).run (tokens v ++ ts) =
      (complete (.object fields n :: around) v).run ts := by rw [run_append, h, Option.bind_some]
  exact hv

lemma run_fields {f : Text × Json} {fs : List (Text × Json)} (h : ∀ g ∈ f :: fs, Builds g.2)
    (fields : List (Text × Json)) :
    (name around fields).run (fieldTokens (f :: fs) ++ [.closeObject]) =
      some (complete around (.object (fields.reverse ++ f :: fs))) := by
  induction fs generalizing f fields with
  | nil =>
    obtain ⟨n, v⟩ := f
    rw [fieldTokens, List.cons_append, List.cons_append, run_field (h (n, v) List.mem_cons_self)]
    simp [run, next?]
  | cons g fs ih =>
    obtain ⟨n, v⟩ := f
    have hf := ih (fun x hx => h x (List.mem_cons_of_mem _ hx)) ((n, v) :: fields)
    have htokens : fieldTokens ((n, v) :: g :: fs) ++ [.closeObject] =
        .string n :: .colon :: (tokens v ++ .comma :: (fieldTokens (g :: fs) ++ [.closeObject])) := by
      simp [fieldTokens]
    rw [htokens, run_field (h (n, v) List.mem_cons_self), run_cons]
    simpa [next?] using hf

lemma run_objectStart (f : Text × Json) (fs : List (Text × Json)) (ts : List Token) :
    (objectStart around).run (fieldTokens (f :: fs) ++ ts) =
      (name around []).run (fieldTokens (f :: fs) ++ ts) := by
  cases fs <;> rfl

lemma builds {v : Json} (h : Plain v) : Builds v := by
  induction h with
  | null => exact fun _ => rfl
  | bool b => exact fun _ => rfl
  | natural n => exact fun _ => rfl
  | string t => exact fun _ => rfl
  | @array items _ ih =>
    intro around
    cases items with
    | nil => rfl
    | cons v vs =>
      have hstart : (arrayStart around).run (itemTokens (v :: vs) ++ [.closeArray]) =
          (value (.array [] :: around)).run (itemTokens (v :: vs) ++ [.closeArray]) := by
        cases vs with
        | nil => exact run_arrayStart v _
        | cons w vs => simpa [itemTokens] using @run_arrayStart around v _
      exact hstart.trans (run_items ih [])
  | @object fields _ ih =>
    intro around
    cases fields with
    | nil => rfl
    | cons f fs => exact (run_objectStart f fs _).trans (run_fields ih [])

end ReaderState

lemma isNumberChar_of_isSpace {c : Char} (h : Token.isSpace c = true) : isNumberChar c = false := by
  simp only [Token.isSpace, Bool.or_eq_true, decide_eq_true_eq] at h
  rcases h with ((rfl | rfl) | rfl) | rfl <;> decide

lemma readAll?_print {v : Json} {tail : Text} (h : Plain v) (indented : Bool)
    (ht : ∀ c ∈ tail, Token.isSpace c = true) :
    Token.readAll? (print indented v ++ tail) = some (tokens v) := by
  have hd : Delimited tail := fun c hc => isNumberChar_of_isSpace (ht c (List.mem_of_head? hc))
  rw [Token.readAll?, spells_print h indented _ _ hd, ← List.append_nil tail, readFrom?_spaces ht]
  simp [readFrom?]

lemma read?_print {v : Json} {tail : Text} (h : Plain v) (indented : Bool)
    (ht : ∀ c ∈ tail, Token.isSpace c = true) : read? (print indented v ++ tail) = some v := by
  have hrun : (tokens v).foldlM ReaderState.next? (.value []) = some (.complete [] v) :=
    ReaderState.builds h []
  simp [read?, readAll?_print h indented ht, ofTokens?, hrun, ReaderState.result?]

end Marginalia.Json
