import Marginalia.Json.Printer
import Marginalia.Json.Reader
import Mathlib.Data.List.TakeWhile

/-! Reading the tokens of printed texts: each printed piece is read as its own token, whatever
stands after it. -/

namespace Marginalia.Json.Token

variable {read : Text} {rest : List Char}

lemma readString?_unit {a b c d ch : Char} {n : Nat} (hn : Text.ofHex? [a, b, c, d] = some n)
    (hc : ofUnit? n = some ch) :
    readString? read ('\\' :: 'u' :: a :: b :: c :: d :: rest) = readString? (ch :: read) rest := by
  rw [readString?.eq_def]
  split
  · next heq => cases heq
  -- Another unit may follow, but this one is no surrogate and stands for itself.
  · next heq =>
    cases heq
    simp [hn, hc]
  · next heq =>
    cases heq
    simp [hn, hc]
  · next hu heq =>
    cases heq
    exact absurd rfl (hu _ _ _ _ _ rfl)
  · next hb heq =>
    cases heq
    exact absurd rfl (hb _ _ rfl)

lemma readString?_short {e ch : Char} (he : e ≠ 'u') (hc : escape? e = some ch) :
    readString? read ('\\' :: e :: rest) = readString? (ch :: read) rest := by
  rw [readString?.eq_def]
  split
  · next heq => cases heq
  · next heq => exact absurd (List.cons.inj (List.cons.inj heq).2).1 he
  · next heq => exact absurd (List.cons.inj (List.cons.inj heq).2).1 he
  · next heq =>
    cases heq
    simp [hc]
  · next hb heq =>
    cases heq
    exact absurd rfl (hb _ _ rfl)

lemma readString?_plain {c : Char} (hq : c ≠ '"') (hb : c ≠ '\\') (hs : ¬c < ' ') :
    readString? read (c :: rest) = readString? (c :: read) rest := by
  rw [readString?.eq_def]
  split
  · next heq => cases heq
  · next heq => exact absurd (List.cons.inj heq).1 hb
  · next heq => exact absurd (List.cons.inj heq).1 hb
  · next heq => exact absurd (List.cons.inj heq).1 hb
  · next heq =>
    cases heq
    rw [if_neg hq, if_neg (by simp [hs, hb])]

lemma ofHex?_control : ∀ n < 32,
    Text.ofHex? ['0', '0', Text.hexDigit (n / 16), Text.hexDigit (n % 16)] = some n := by
  decide

lemma ofUnit?_control : ∀ n < 32, ofUnit? n = some (Char.ofNat n) := by
  decide

lemma readString?_escape (c : Char) : readString? read (escape c ++ rest) = readString? (c :: read) rest := by
  unfold escape
  split_ifs with h1 h2 h3 h4 h5 h6 h7 h8
  · exact readString?_short (by decide) (by rw [h1]; rfl)
  · exact readString?_short (by decide) (by rw [h2]; rfl)
  · exact readString?_short (by decide) (by rw [h3]; rfl)
  · exact readString?_short (by decide) (by rw [h4]; rfl)
  · exact readString?_short (by decide) (by rw [h5]; rfl)
  · exact readString?_short (by decide) (by rw [h6]; rfl)
  · exact readString?_short (by decide) (by rw [h7]; rfl)
  · have hn : c.toNat < 32 := h8
    have hu := ofUnit?_control c.toNat hn
    rw [Char.ofNat_toNat] at hu
    exact readString?_unit (ofHex?_control c.toNat hn) hu
  · exact readString?_plain h1 h2 h8

lemma readString?_quoted (t : Text) :
    readString? read (t.flatMap escape ++ '"' :: rest) = some (read.reverse ++ t, rest) := by
  induction t generalizing read with
  | nil => simp [readString?]
  | cons c t ih =>
    rw [List.flatMap_cons, List.append_assoc, readString?_escape, ih]
    simp

end Marginalia.Json.Token

namespace Marginalia.Text

lemma isDigit_of_mem_numeral {n : Nat} {c : Char} (h : c ∈ numeral n) : c.isDigit = true :=
  Nat.isDigit_of_mem_toDigits (by decide) (by decide) h

lemma digitChar_ne_zero : ∀ n < 10, n ≠ 0 → n.digitChar ≠ '0' := by
  decide

lemma head_numeral {n : Nat} (hn : n ≠ 0) : ∃ c ds, numeral n = c :: ds ∧ c ≠ '0' := by
  induction n using Nat.strongRecOn with
  | ind n ih =>
    by_cases hlt : n < 10
    · exact ⟨n.digitChar, [], Nat.toDigits_of_lt_base hlt, digitChar_ne_zero n hlt hn⟩
    · obtain ⟨c, ds, hd, hc⟩ := ih (n / 10) (by omega) (by omega)
      refine ⟨c, ds ++ [(n % 10).digitChar], ?_, hc⟩
      rw [numeral] at hd
      rw [numeral, Nat.toDigits_of_base_le (by decide) (by omega), hd]
      rfl

end Marginalia.Text

namespace Marginalia.Json.Token

variable {rest : List Char}

def Delimited (rest : List Char) : Prop := ∀ c ∈ rest.head?, isNumberChar c = false

lemma ofLiteral?_numeral (n : Nat) : ofLiteral? (Text.numeral n) = some (.natural n) := by
  have hdigits : ∀ c ∈ Text.numeral n, c.isDigit = true := fun c => Text.isDigit_of_mem_numeral
  have hsign : (Text.numeral n).head? ≠ some '-' := by
    intro h
    exact absurd (hdigits '-' (List.mem_of_head? h)) (by decide)
  have hzero : ((Text.numeral n).isEmpty ||
      (decide ((Text.numeral n).head? = some '0') && decide ((Text.numeral n).length ≠ 1))) = false := by
    by_cases hn : n = 0
    · subst hn
      decide
    · obtain ⟨c, ds, hd, hc⟩ := Text.head_numeral hn
      simp [hd, hc]
  rw [ofLiteral?]
  simp only [if_neg hsign, List.takeWhile_eq_self_iff.mpr hdigits, List.dropWhile_eq_nil_iff.mpr hdigits,
    hzero, Text.ofDigits_numeral]
  simp [hsign]

lemma takeWhile_delimited (ds : List Char) (hd : ∀ c ∈ ds, isNumberChar c = true) (hr : Delimited rest) :
    (ds ++ rest).takeWhile isNumberChar = ds ∧ (ds ++ rest).dropWhile isNumberChar = rest := by
  rw [List.takeWhile_append_of_pos hd, List.dropWhile_append_of_pos hd]
  cases rest with
  | nil => simp
  | cons c rest => simp [hr c (by simp)]

lemma read?_numeral {c : Char} {ds : List Char} {n : Nat} (hn : Text.numeral n = c :: ds)
    (hr : Delimited rest) : read? c (ds ++ rest) = some (.natural n, rest) := by
  have hdigits : ∀ x ∈ c :: ds, x.isDigit = true := fun x hx => Text.isDigit_of_mem_numeral (hn ▸ hx)
  have hc : c.isDigit = true := hdigits c List.mem_cons_self
  obtain ⟨htake, hdrop⟩ := takeWhile_delimited ds (fun x hx => by
    simp [isNumberChar, hdigits x (List.mem_cons_of_mem _ hx)]) hr
  unfold read?
  split
  case h_11 => simp [hc, htake, hdrop, ← hn, ofLiteral?_numeral]
  all_goals exact absurd hc (by decide)

variable {read : List Token} {token : Token} {c : Char} {cs : List Char}

lemma readFrom?_token (hs : isSpace c = false) (h : read? c cs = some (token, rest)) :
    readFrom? read (c :: cs) = readFrom? (token :: read) rest := by
  rw [readFrom?, hs, if_neg Bool.false_ne_true]
  split
  · next r hr =>
    rw [h, Option.some.injEq] at hr
    rw [← hr]
  · next hr => simp [h] at hr

lemma readFrom?_spaces {s : List Char} (hs : ∀ c ∈ s, isSpace c = true) :
    readFrom? read (s ++ rest) = readFrom? read rest := by
  induction s with
  | nil => rfl
  | cons c s ih =>
    rw [List.cons_append, readFrom?, if_pos (hs c List.mem_cons_self)]
    exact ih fun d hd => hs d (List.mem_cons_of_mem _ hd)

lemma readFrom?_newLine (depth : Nat) : readFrom? read (newLine depth ++ rest) = readFrom? read rest := by
  refine readFrom?_spaces fun c hc => ?_
  rcases List.mem_cons.mp hc with rfl | hc
  · decide
  · rw [List.eq_of_mem_replicate hc]
    decide

lemma readFrom?_quote (t : Text) :
    readFrom? read (quote t ++ rest) = readFrom? (.string t :: read) rest := by
  have hq : read? '"' (t.flatMap escape ++ '"' :: rest) = some (.string t, rest) := by
    rw [read?, readString?_quoted]
    rfl
  have h : readFrom? read ('"' :: (t.flatMap escape ++ '"' :: rest)) = readFrom? (.string t :: read) rest :=
    readFrom?_token (by decide) hq
  simpa [quote] using h

lemma readFrom?_numeral (n : Nat) (hr : Delimited rest) :
    readFrom? read (Text.numeral n ++ rest) = readFrom? (.natural n :: read) rest := by
  obtain ⟨c, ds, hn⟩ : ∃ c ds, Text.numeral n = c :: ds :=
    List.exists_cons_of_ne_nil Nat.toDigits_ne_nil
  have hc : c.isDigit = true := Text.isDigit_of_mem_numeral (hn ▸ List.mem_cons_self)
  have hs : isSpace c = false := by
    have hne : ∀ x : Char, x.isDigit = false → c ≠ x := by
      rintro x hx rfl
      simp [hx] at hc
    simp [isSpace, hne ' ' (by decide), hne '\t' (by decide), hne '\n' (by decide), hne '\r' (by decide)]
  rw [hn, List.cons_append]
  exact readFrom?_token hs (read?_numeral hn hr)

lemma readFrom?_bool (b : Bool) :
    readFrom? read (printBool b ++ rest) = readFrom? (.bool b :: read) rest := by
  cases b with
  | true => exact readFrom?_token (c := 't') (by decide) rfl
  | false => exact readFrom?_token (c := 'f') (by decide) rfl

lemma readFrom?_null : readFrom? read (Text.lit "null" ++ rest) = readFrom? (.null :: read) rest :=
  readFrom?_token (c := 'n') (by decide) rfl

end Marginalia.Json.Token
