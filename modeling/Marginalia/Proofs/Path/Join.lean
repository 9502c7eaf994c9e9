import Marginalia.Path.Basic
import Marginalia.Proofs.Text.Parts

/-! Joined paths. Joining is associative, and a base that only says "here" changes nothing about a path
that starts there as well. -/

namespace Marginalia.Path

variable {base path name : Text}

lemma isAbsolute_of_notMem (h : '/' ∉ path) : isAbsolute path = false := by
  obtain _ | ⟨c, cs⟩ := path
  · rfl
  · have hc : c ≠ '/' := fun hc => h (hc ▸ List.mem_cons_self)
    simpa [isAbsolute] using hc

lemma join_of_isAbsolute (h : isAbsolute path = true) : join base path = path := by
  simp [join, h]

@[simp] lemma nil_join (path : Text) : join [] path = path := by
  simp [join]

def slashed (base : Text) : Text := if base.getLast? = some '/' then base else base ++ ['/']

lemma join_eq_append (hb : base ≠ []) (hp : isAbsolute path = false) :
    join base path = slashed base ++ path := by
  have he : base.isEmpty = false := by simpa using hb
  simp only [join, slashed, hp, he, Bool.or_self, Bool.false_eq_true, if_false]
  split <;> simp

@[simp] lemma slashed_ne_nil (base : Text) : slashed base ≠ [] := by
  unfold slashed
  split
  · rename_i h
    rintro rfl
    simp at h
  · simp

@[simp] lemma slashed_slashed (base : Text) : slashed (slashed base) = slashed base := by
  by_cases h : base.getLast? = some '/' <;> simp [slashed, h]

lemma slashed_append (base : Text) (h : path ≠ []) : slashed (base ++ path) = base ++ slashed path := by
  have hl : (base ++ path).getLast? = path.getLast? := by
    rw [List.getLast?_append, List.getLast?_eq_some_getLast h, Option.some_or]
  simp only [slashed, hl]
  split <;> simp

lemma isAbsolute_slashed_append (hb : base ≠ []) : isAbsolute (slashed base ++ path) = isAbsolute base := by
  obtain ⟨c, cs, rfl⟩ := List.exists_cons_of_ne_nil hb
  unfold slashed
  split <;> rfl

lemma isAbsolute_join (hb : base ≠ []) (hp : isAbsolute path = false) :
    isAbsolute (join base path) = isAbsolute base := by
  rw [join_eq_append hb hp, isAbsolute_slashed_append hb]

lemma join_ne_nil (hb : base ≠ []) (hp : isAbsolute path = false) : join base path ≠ [] := by
  rw [join_eq_append hb hp]
  exact List.append_ne_nil_of_left_ne_nil (slashed_ne_nil base) path

theorem join_assoc (base path name : Text) : join base (join path name) = join (join base path) name := by
  by_cases hn : isAbsolute name = true
  · rw [join_of_isAbsolute hn, join_of_isAbsolute hn, join_of_isAbsolute hn]
  rw [Bool.not_eq_true] at hn
  by_cases hb : base = []
  · rw [hb, nil_join, nil_join]
  by_cases hp : path = []
  · have hr : join base [] = slashed base := by rw [join_eq_append hb rfl, List.append_nil]
    rw [hp, nil_join, hr, join_eq_append hb hn, join_eq_append (slashed_ne_nil base) hn, slashed_slashed]
  have hpn := isAbsolute_join hp hn
  by_cases ha : isAbsolute path = true
  · rw [join_of_isAbsolute ha, join_of_isAbsolute (hpn.trans ha)]
  · rw [Bool.not_eq_true] at ha
    rw [join_eq_append hb (hpn.trans ha), join_eq_append hb ha, join_eq_append hp hn,
      join_eq_append (by simp) hn, slashed_append _ hp, List.append_assoc]

lemma exists_splitOn_join (hb : base ≠ []) (hp : isAbsolute path = false) :
    ∃ front, front ≠ [] ∧ (base.splitOn '/' = front ∨ base.splitOn '/' = front ++ [[]]) ∧
      (join base path).splitOn '/' = front ++ path.splitOn '/' := by
  rw [join_eq_append hb hp, slashed]
  split
  · rename_i h
    obtain ⟨b, rfl⟩ := List.getLast?_eq_some_iff.mp h
    refine ⟨b.splitOn '/', List.splitOn_ne_nil _ _, .inr ?_, ?_⟩
    · exact List.splitOn_append_cons_self b []
    · rw [List.append_assoc]
      exact List.splitOn_append_cons_self b path
  · refine ⟨base.splitOn '/', List.splitOn_ne_nil _ _, .inl rfl, ?_⟩
    rw [List.append_assoc]
    exact List.splitOn_append_cons_self base path

def Dotted (path : Text) : Prop := ∃ rest, path.splitOn '/' = ['.'] :: rest

lemma Dotted.ne_nil (h : Dotted path) : path ≠ [] := by
  rintro rfl
  obtain ⟨rest, h⟩ := h
  simp at h

lemma Dotted.isAbsolute (h : Dotted path) : isAbsolute path = false := by
  obtain ⟨rest, h⟩ := h
  obtain _ | ⟨c, cs⟩ := path
  · rfl
  · by_cases hc : c = '/'
    · simp [hc, List.splitOn_cons_eq_if_modifyHead] at h
    · simp [Path.isAbsolute, hc]

lemma Dotted.join (hb : Dotted base) (hp : Path.isAbsolute path = false) : Dotted (join base path) := by
  obtain ⟨front, hf, hs, hj⟩ := exists_splitOn_join hb.ne_nil hp
  obtain ⟨rest, hr⟩ := hb
  obtain ⟨first, front, rfl⟩ := List.exists_cons_of_ne_nil hf
  refine ⟨front ++ path.splitOn '/', ?_⟩
  rw [hj]
  rcases hs with hs | hs <;> simp_all

def IsName (piece : Text) : Prop := isFiller piece = false ∧ piece ≠ ['.', '.']

/-- Where the path starts does not depend on what it is joined to, or is said by a dot. -/
def Anchored (path : Text) : Prop := isAbsolute path = true ∨ Dotted path

lemma Anchored.join (h : Anchored path) (name : Text) : Anchored (join path name) := by
  by_cases hn : isAbsolute name = true
  · rw [join_of_isAbsolute hn]
    exact .inl hn
  rw [Bool.not_eq_true] at hn
  rcases h with h | h
  · have hp : path ≠ [] := by
      rintro rfl
      simp [isAbsolute] at h
    refine .inl ?_
    rw [isAbsolute_join hp hn, h]
  · exact .inr (h.join hn)

lemma components_of_splitOn {first : Text} {rest : List Text} (hp : path ≠ [])
    (h : path.splitOn '/' = first :: rest) : components path = .ofFirst first :: inner rest := by
  have he : path.isEmpty = false := by simpa using hp
  simp [components, he, h]

lemma isAbsolute_iff {first : Text} {rest : List Text} (hp : path ≠ []) (h : path.splitOn '/' = first :: rest) :
    isAbsolute path = true ↔ first = [] := by
  obtain ⟨c, cs, rfl⟩ := List.exists_cons_of_ne_nil hp
  obtain ⟨head, tail, -, ⟨hc, hs⟩ | ⟨hc, hs⟩⟩ := Text.splitOn_cons_cases '/' c cs
  · obtain ⟨rfl, -⟩ := List.cons.inj (h.symm.trans hs)
    simp [isAbsolute, hc]
  · obtain ⟨rfl, -⟩ := List.cons.inj (h.symm.trans hs)
    simp [isAbsolute, hc]

lemma inner_eq_nil_iff {pieces : List Text} : inner pieces = [] ↔ ∀ piece ∈ pieces, isFiller piece = true := by
  simp [inner, List.filter_eq_nil_iff]

lemma mem_of_name_mem_inner {pieces : List Text} (h : .name name ∈ inner pieces) : name ∈ pieces := by
  obtain ⟨piece, hp, ho⟩ := List.mem_map.mp h
  unfold Component.ofPiece at ho
  split at ho
  · cases ho
  · obtain rfl := Component.name.inj ho
    exact (List.mem_filter.mp hp).1

lemma inner_append (ps qs : List Text) : inner (ps ++ qs) = inner ps ++ inner qs := by
  simp [inner]

lemma ofPieces_filler {fillers : List Text} (h : ∀ piece ∈ fillers, isFiller piece = true) (rest : List Text) :
    ofPieces (fillers ++ rest) = ofPieces rest := by
  rw [ofPieces, List.dropWhile_append_of_pos h, ofPieces]

lemma components_join (hb : base ≠ []) (hp : isAbsolute path = false) :
    components (join base path) = components base ++ inner (path.splitOn '/') := by
  obtain ⟨front, hf, hs, hj⟩ := exists_splitOn_join hb hp
  obtain ⟨first, front, rfl⟩ := List.exists_cons_of_ne_nil hf
  have hbase : components base = .ofFirst first :: inner front := by
    rcases hs with hs | hs
    · exact components_of_splitOn hb hs
    · rw [List.cons_append] at hs
      rw [components_of_splitOn hb hs, inner_append]
      exact congrArg _ (List.append_nil _)
  rw [List.cons_append] at hj
  rw [components_of_splitOn (join_ne_nil hb hp) hj, hbase, inner_append, List.cons_append]

lemma fileName?_eq_some_iff : fileName? path = some name ↔ (components path).getLast? = some (.name name) := by
  unfold fileName?
  split
  · next n h => simp [h]
  · next h => exact iff_of_false (by simp) (h name)

lemma getLast?_inner_splitOn (h : (components path).getLast? = some (.name name)) :
    (inner (path.splitOn '/')).getLast? = some (.name name) := by
  have hp : path ≠ [] := by
    rintro rfl
    simp [components] at h
  obtain ⟨first, rest, hs⟩ := List.exists_cons_of_ne_nil (List.splitOn_ne_nil '/' path)
  rw [components_of_splitOn hp hs, List.getLast?_cons] at h
  rw [hs, ← List.singleton_append, inner_append, List.getLast?_append]
  cases hr : (inner rest).getLast? with
  | some last =>
    rw [hr] at h
    exact h
  | none =>
    rw [hr, Option.getD_none, Option.some.injEq, Component.ofFirst] at h
    split at h
    · cases h
    split at h
    · cases h
    · next hn hd => simp [inner, isFiller, hn, hd, h]

lemma fileName?_join (h : fileName? path = some name) : fileName? (join base path) = some name := by
  by_cases hr : base = []
  · rwa [hr, nil_join]
  cases ha : isAbsolute path with
  | true => rwa [join_of_isAbsolute ha]
  | false =>
    rw [fileName?_eq_some_iff] at h ⊢
    rw [components_join hr ha, List.getLast?_append, getLast?_inner_splitOn h, Option.some_or]

lemma extension?_join {extension : Text} (h : extension? path = some extension) :
    extension? (join base path) = some extension := by
  obtain ⟨name, hn, he⟩ := Option.bind_eq_some_iff.mp h
  rw [extension?, fileName?_join hn, Option.bind_some, he]

structure Idle (base : Text) : Prop where
  dotted : Dotted base
  filler : ∀ piece ∈ base.splitOn '/', isFiller piece = true

lemma Idle.of_filler (hb : base ≠ []) (ha : isAbsolute base = false)
    (h : ∀ piece ∈ base.splitOn '/', isFiller piece = true) : Idle base := by
  refine ⟨?_, h⟩
  obtain ⟨c, cs, rfl⟩ := List.exists_cons_of_ne_nil hb
  have hc : c ≠ '/' := by simpa [isAbsolute] using ha
  obtain ⟨first, rest, -, ⟨hd, -⟩ | ⟨-, hs⟩⟩ := Text.splitOn_cons_cases '/' c cs
  · exact absurd hd hc
  refine ⟨rest, ?_⟩
  rw [hs, List.forall_mem_cons] at h
  rw [hs]
  simpa [isFiller] using h.1

/-- Seen from itself, the path leads to the same place: it is absolute, or made of fillers. -/
def Settled (path : Text) : Prop := isAbsolute path = true ∨ ∀ piece ∈ path.splitOn '/', isFiller piece = true

namespace Idle

lemma exists_splitOn_join (hb : Idle base) (hp : Dotted path) :
    ∃ fillers, (∀ piece ∈ fillers, isFiller piece = true) ∧
      (join base path).splitOn '/' = ['.'] :: fillers ++ path.splitOn '/' := by
  obtain ⟨front, hf, hs, hj⟩ := Path.exists_splitOn_join hb.dotted.ne_nil hp.isAbsolute
  obtain ⟨first, front, rfl⟩ := List.exists_cons_of_ne_nil hf
  obtain ⟨rest, hr⟩ := hb.dotted
  have hfill := hb.filler
  refine ⟨front, ?_, ?_⟩
  · intro piece hm
    apply hfill
    rcases hs with hs | hs <;> simp [hs, hm]
  · rw [hj]
    rcases hs with hs | hs <;> simp_all

lemma components_eq (hb : Idle base) : components base = [.current] := by
  obtain ⟨rest, hr⟩ := hb.dotted
  rw [components_of_splitOn hb.dotted.ne_nil hr]
  have hrest : ∀ piece ∈ rest, isFiller piece = true := by
    intro piece hm
    exact hb.filler piece (by simp [hr, hm])
  rw [inner_eq_nil_iff.mpr hrest]
  rfl

lemma components_join (hb : Idle base) (hp : Anchored path) :
    components (join base path) = components path := by
  rcases hp with hp | hp
  · rw [join_of_isAbsolute hp]
  rw [Path.components_join hb.dotted.ne_nil hp.isAbsolute, hb.components_eq]
  have hne := hp.ne_nil
  obtain ⟨rest, hr⟩ := hp
  rw [components_of_splitOn hne hr, hr]
  rfl

lemma relativeTo_join (hb : Idle base) (hp : Anchored path) :
    relativeTo base (join base path) = relativeTo base path := by
  have hc := hb.components_join hp
  rcases hp with hp | hp
  · rw [join_of_isAbsolute hp]
  obtain ⟨fillers, hf, hj⟩ := hb.exists_splitOn_join hp
  obtain ⟨rest, hr⟩ := hp
  have hfront : components path = .current :: inner rest := components_of_splitOn (Dotted.ne_nil ⟨rest, hr⟩) hr
  have hpieces : ofPieces (fillers ++ ['.'] :: rest) = ofPieces rest := by
    rw [ofPieces_filler hf]
    exact ofPieces_filler (List.forall_mem_singleton.mpr rfl) rest
  simp only [relativeTo, relativeTo?, hb.components_eq, hc, hj, hr, List.length_singleton, skip, List.tail_cons,
    List.cons_append, hpieces]
  rw [hfront]
  rfl

end Idle

end Marginalia.Path
