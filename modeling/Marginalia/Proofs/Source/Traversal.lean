import Marginalia.Source.Comments
import Mathlib.Tactic.Lemma

/-! The cursor's walk finds the outermost nodes with a property, and the tree built from the lexemes
of a script has its comments as such nodes, in order. -/

namespace Marginalia.Source.Tree

variable {α : Type} (p : α → Bool)

@[simp] lemma outermost_leaf (l : α) : (leaf l).outermost p = if p l then [l] else [] := by
  simp [leaf, outermost, outermosts]

lemma outermosts_append (ts us : List (Tree α)) :
    outermosts p (ts ++ us) = outermosts p ts ++ outermosts p us := by
  induction ts with
  | nil => rfl
  | cons t ts ih => simp [outermosts, ih]

variable {p} in
lemma outermost_of_pos {t : Tree α} (h : p t.label = true) : t.outermost p = [t.label] := by
  obtain ⟨l, ts⟩ := t
  rw [outermost, label]
  exact if_pos h

variable {p} in
lemma outermost_of_neg {t : Tree α} (h : ¬p t.label = true) : t.outermost p = outermosts p t.children := by
  obtain ⟨l, ts⟩ := t
  rw [outermost, children]
  exact if_neg h

namespace Cursor

def remaining (crumbs : List (Crumb α)) : List α := crumbs.flatMap fun crumb => outermosts p crumb.after

variable {p} {c d : Cursor α}

lemma exists_of_firstChild? (h : c.firstChild? = some d) :
    ∃ t ts, c.focus.children = t :: ts ∧ d = ⟨t, ⟨c.focus.label, [], ts⟩ :: c.crumbs⟩ := by
  obtain ⟨⟨l, ts⟩, crumbs⟩ := c
  cases ts with
  | nil => simp [firstChild?] at h
  | cons t ts =>
    simp only [firstChild?, Option.some.injEq] at h
    exact ⟨t, ts, rfl, h.symm⟩

lemma exists_of_nextSibling? (h : c.nextSibling? = some d) :
    ∃ l before t ts up, c.crumbs = ⟨l, before, t :: ts⟩ :: up ∧ d = ⟨t, ⟨l, c.focus :: before, ts⟩ :: up⟩ := by
  obtain ⟨focus, crumbs⟩ := c
  match crumbs, h with
  | ⟨l, before, t :: ts⟩ :: up, h =>
    simp only [nextSibling?, Option.some.injEq] at h
    exact ⟨l, before, t, ts, up, rfl, h.symm⟩
  | ⟨_, _, []⟩ :: _, h => simp [nextSibling?] at h
  | [], h => simp [nextSibling?] at h

lemma remaining_firstChild (h : c.firstChild? = some d) :
    d.focus.outermost p ++ remaining p d.crumbs =
      outermosts p c.focus.children ++ remaining p c.crumbs := by
  obtain ⟨t, ts, hc, rfl⟩ := exists_of_firstChild? h
  simp [remaining, hc, outermosts]

lemma children_of_firstChild_none (h : c.firstChild? = none) : c.focus.children = [] := by
  obtain ⟨⟨l, ts⟩, crumbs⟩ := c
  cases ts with
  | nil => rfl
  | cons t ts => simp [firstChild?] at h

lemma remaining_nextSibling (h : c.nextSibling? = some d) :
    d.focus.outermost p ++ remaining p d.crumbs = remaining p c.crumbs := by
  obtain ⟨l, before, t, ts, up, hc, rfl⟩ := exists_of_nextSibling? h
  simp [remaining, hc, outermosts]

lemma remaining_parent (hn : c.nextSibling? = none) (h : c.parent? = some d) :
    remaining p d.crumbs = remaining p c.crumbs := by
  obtain ⟨focus, crumbs⟩ := c
  match crumbs, hn, h with
  | ⟨_, _, _ :: _⟩ :: _, hn, _ => simp [nextSibling?] at hn
  | ⟨_, _, []⟩ :: _, _, h =>
    simp only [parent?, Option.some.injEq] at h
    subst h
    simp [remaining, outermosts]
  | [], _, h => simp [parent?] at h

lemma crumbs_of_parent_none (h : c.parent? = none) : c.crumbs = [] := by
  obtain ⟨focus, crumbs⟩ := c
  cases crumbs with
  | nil => rfl
  | cons crumb up => simp [parent?] at h

lemma remaining_following (h : c.following? = some d) :
    d.focus.outermost p ++ remaining p d.crumbs = remaining p c.crumbs := by
  fun_induction following? c with
  | case1 c s hs =>
    cases h
    exact remaining_nextSibling hs
  | case2 c hn q hq ih => rw [ih h, remaining_parent hn hq]
  | case3 => simp at h

lemma remaining_following_none (h : c.following? = none) : remaining p c.crumbs = [] := by
  fun_induction following? c with
  | case1 => simp at h
  | case2 c hn q hq ih => rw [← remaining_parent hn hq, ih h]
  | case3 c hn hp => simp [crumbs_of_parent_none hp, remaining]

-- The walk adds what the subtree in focus and all that comes after it contribute.
lemma collect_eq (c : Cursor α) (found : List α) :
    c.collect p found = found.reverse ++ c.focus.outermost p ++ remaining p c.crumbs := by
  fun_induction collect p c found with
  | case1 c found hp d hd ih =>
    rw [ih, List.append_assoc, remaining_following hd, outermost_of_pos hp, List.reverse_cons]
  | case2 c found hp hd =>
    rw [remaining_following_none hd, outermost_of_pos hp, List.reverse_cons, List.append_nil]
  | case3 c found hp d hd ih =>
    rw [ih, List.append_assoc, remaining_firstChild hd, outermost_of_neg hp, List.append_assoc]
  | case4 c found hp hc d hd ih =>
    rw [ih, List.append_assoc, remaining_following hd, outermost_of_neg hp,
      children_of_firstChild_none hc, outermosts, List.append_nil]
  | case5 c found hp hc hd =>
    rw [remaining_following_none hd, outermost_of_neg hp, children_of_firstChild_none hc,
      outermosts, List.append_nil, List.append_nil]

lemma collect_atRoot (t : Tree α) : (atRoot t).collect p [] = t.outermost p := by
  simp [collect_eq, atRoot, remaining]

end Cursor

end Marginalia.Source.Tree

namespace Marginalia.Source.Structure

open Marginalia.Source.Tree

def comments (ts : List (Tree Part)) : List Part := outermosts Part.isComment ts.reverse

def found (s : Structure) : List Part :=
  s.outer.foldl (fun inner parts => comments parts ++ inner) (comments s.inner)

lemma foldl_comments_append (outer : List (List (Tree Part))) (a b : List Part) :
    outer.foldl (fun inner parts => comments parts ++ inner) (a ++ b) =
      outer.foldl (fun inner parts => comments parts ++ inner) a ++ b := by
  induction outer generalizing a with
  | nil => rfl
  | cons parts outer ih => simpa only [List.foldl_cons, List.append_assoc] using ih (comments parts ++ a)

@[simp] lemma found_openConstruct (s : Structure) : s.openConstruct.found = s.found := by
  simp [found, openConstruct, comments, outermosts]

@[simp] lemma found_closeConstruct (s : Structure) : s.closeConstruct.found = s.found := by
  obtain ⟨inner, outer⟩ := s
  cases outer with
  | nil => rfl
  | cons parts outer =>
    simp [found, closeConstruct, comments, outermosts_append, outermosts, outermost, Part.isComment]

lemma found_add (s : Structure) (l : Lexeme) :
    (s.add l).found = s.found ++ if l.kind.isComment then [.lexeme l] else [] := by
  rw [found, found, ← foldl_comments_append]
  cases h : l.kind.isComment <;> simp [add, comments, outermosts_append, outermosts, Part.isComment, h]

lemma found_repeat {f : Structure → Structure} (hf : ∀ s, (f s).found = s.found) (n : Nat)
    (s : Structure) : (Nat.repeat f n s).found = s.found := by
  induction n with
  | zero => rfl
  | succ n ih => rw [Nat.repeat, hf, ih]

lemma found_extend (s : Structure) (l : Lexeme) :
    (s.extend l).found = s.found ++ if l.kind.isComment then [.lexeme l] else [] := by
  rw [extend, found_repeat found_closeConstruct, found_add, found_repeat found_openConstruct]

lemma found_foldl_extend (ls : List Lexeme) (s : Structure) :
    (ls.foldl extend s).found = s.found ++ (ls.filter (·.kind.isComment)).map .lexeme := by
  induction ls generalizing s with
  | nil => simp
  | cons l ls ih =>
    rw [List.foldl_cons, ih, found_extend]
    cases h : l.kind.isComment <;> simp [h]

lemma outer_closeConstruct (s : Structure) : s.closeConstruct.outer = s.outer.tail := by
  obtain ⟨inner, outer⟩ := s
  cases outer <;> rfl

lemma outer_repeat_closeConstruct (n : Nat) (s : Structure) :
    (Nat.repeat closeConstruct n s).outer = s.outer.drop n := by
  induction n with
  | zero => rfl
  | succ n ih => rw [Nat.repeat, outer_closeConstruct, ih, List.tail_drop]

lemma outermost_finish (s : Structure) : s.finish.outermost Part.isComment = s.found := by
  have ho : (Nat.repeat closeConstruct s.depth s).outer = [] := by
    rw [outer_repeat_closeConstruct, depth, List.drop_length]
  rw [← found_repeat found_closeConstruct s.depth s, found, ho]
  rfl

lemma outermost_ofLexemes (ls : List Lexeme) :
    (ofLexemes ls).outermost Part.isComment = (ls.filter (·.kind.isComment)).map .lexeme := by
  rw [ofLexemes, outermost_finish, found_foldl_extend]
  rfl

end Marginalia.Source.Structure

namespace Marginalia.Source

lemma comments_eq_map_filter (d : Dialect) (source : Text) :
    comments d source = ((Lexeme.scan d source).filter (·.kind.isComment)).map Lexeme.rawComment := by
  rw [comments, Tree.Cursor.collect_atRoot, structureOf, Structure.outermost_ofLexemes]
  simp [List.filterMap_map, Function.comp_def, Part.lexeme?]

end Marginalia.Source
