import Marginalia.Proofs.Source.Traversal
import Mathlib.Logic.Function.Iterate

/-! The cursor's walk, turn by turn. It ends after at most two turns for each node of the tree, and finds the nodes
with a property that have no such node above them, in the order of their addresses. -/

namespace Marginalia.Source.Tree

variable {α : Type} {p : α → Bool}

@[elab_as_elim]
lemma child_induction {motive : Tree α → Prop}
    (node : ∀ l ts, (∀ t ∈ ts, motive t) → motive (node l ts)) : ∀ t, motive t
  | .node l ts => node l ts fun t _ => child_induction node t

section Addresses

-- An address lists the numbers of the children on the way down. As lists of numbers, addresses are ordered as a walk
-- comes to them: a node before the nodes below it, and these before the nodes of the next sibling.
def at? : Tree α → List Nat → Option (Tree α)
  | t, [] => some t
  | t, i :: address => t.children[i]?.bind fun s => s.at? address

def labelAt? (t : Tree α) (address : List Nat) : Option α := (t.at? address).map label

def IsOutermost (p : α → Bool) (t : Tree α) (address : List Nat) : Prop :=
  (∃ l ∈ t.labelAt? address, p l = true) ∧
    ∀ above, above <+: address → above ≠ address → ∀ l ∈ t.labelAt? above, p l = false

variable {t : Tree α} {i : Nat} {address : List Nat}

lemma labelAt?_nil : t.labelAt? [] = some t.label := rfl

lemma labelAt?_cons : t.labelAt? (i :: address) = t.children[i]?.bind fun s => s.labelAt? address := by
  rw [labelAt?, at?, Option.map_bind]
  rfl

lemma isOutermost_nil : t.IsOutermost p [] ↔ p t.label = true := by
  simp [IsOutermost, labelAt?_nil]

lemma isOutermost_cons :
    t.IsOutermost p (i :: address) ↔
      p t.label = false ∧ ∃ s ∈ t.children[i]?, s.IsOutermost p address := by
  constructor
  · rintro ⟨⟨l, hl, hp⟩, habove⟩
    refine ⟨habove [] (List.nil_prefix) (by simp) t.label rfl, ?_⟩
    rw [labelAt?_cons] at hl
    obtain ⟨s, hs, hl⟩ := Option.bind_eq_some_iff.mp hl
    refine ⟨s, hs, ⟨l, hl, hp⟩, ?_⟩
    intro above hstart hne m hm
    apply habove (i :: above) ((List.prefix_cons_inj i).mpr hstart) (by simpa using hne)
    rw [labelAt?_cons, Option.mem_def.mp hs]
    exact hm
  · rintro ⟨hroot, s, hs, ⟨l, hl, hp⟩, habove⟩
    have hlabel : ∀ a, t.labelAt? (i :: a) = s.labelAt? a := by
      intro a
      rw [labelAt?_cons, Option.mem_def.mp hs]
      rfl
    refine ⟨⟨l, (hlabel address).symm ▸ hl, hp⟩, ?_⟩
    intro above hstart hne m hm
    cases above with
    | nil =>
      cases hm
      exact hroot
    | cons j above =>
      obtain ⟨rfl, hbelow⟩ := List.cons_prefix_cons.mp hstart
      rw [hlabel] at hm
      exact habove above hbelow (by simpa using hne) m hm

mutual

def places (p : α → Bool) : Tree α → List (List Nat)
  | node l ts => if p l then [[]] else placesFrom p 0 ts

def placesFrom (p : α → Bool) : Nat → List (Tree α) → List (List Nat)
  | _, [] => []
  | i, t :: ts => (places p t).map (i :: ·) ++ placesFrom p (i + 1) ts

end

lemma mem_placesFrom {ts : List (Tree α)} :
    address ∈ placesFrom p i ts ↔ ∃ j s rest, ts[j]? = some s ∧ rest ∈ s.places p ∧ address = (i + j) :: rest := by
  induction ts generalizing i with
  | nil => simp [placesFrom]
  | cons t ts ih =>
    rw [placesFrom, List.mem_append, ih, List.mem_map]
    constructor
    · rintro (⟨rest, hr, rfl⟩ | ⟨j, s, rest, hs, hr, rfl⟩)
      · exact ⟨0, t, rest, rfl, hr, rfl⟩
      · exact ⟨j + 1, s, rest, hs, hr, by rw [Nat.add_assoc, Nat.add_comm 1]⟩
    · rintro ⟨j, s, rest, hs, hr, rfl⟩
      cases j with
      | zero =>
        cases hs
        exact .inl ⟨rest, hr, rfl⟩
      | succ j => exact .inr ⟨j, s, rest, hs, hr, by rw [Nat.add_assoc, Nat.add_comm 1]⟩

lemma mem_places : address ∈ t.places p ↔ t.IsOutermost p address := by
  induction t using child_induction generalizing address with
  | node l ts ih =>
    rw [places]
    by_cases hp : p l = true
    · rw [if_pos hp]
      cases address with
      | nil => simp [isOutermost_nil, label, hp]
      | cons i address => simp [isOutermost_cons, label, hp]
    · rw [if_neg hp, mem_placesFrom]
      cases address with
      | nil => simp [isOutermost_nil, label, hp]
      | cons i address =>
        rw [isOutermost_cons, label, children]
        constructor
        · rintro ⟨j, s, rest, hs, hr, he⟩
          rw [Nat.zero_add] at he
          cases he
          exact ⟨Bool.eq_false_iff.mpr hp, s, hs, (ih s (List.mem_of_getElem? hs)).mp hr⟩
        · rintro ⟨-, s, hs, ho⟩
          exact ⟨i, s, address, hs, (ih s (List.mem_of_getElem? hs)).mpr ho, by rw [Nat.zero_add]⟩

lemma placesFrom_sorted {ts : List (Tree α)} (h : ∀ t ∈ ts, (t.places p).Pairwise (· < ·)) :
    (placesFrom p i ts).Pairwise (· < ·) := by
  induction ts generalizing i with
  | nil => exact List.Pairwise.nil
  | cons t ts ih =>
    rw [placesFrom, List.pairwise_append]
    refine ⟨?_, ih fun s hs => h s (List.mem_cons_of_mem t hs), ?_⟩
    · rw [List.pairwise_map]
      apply (h t List.mem_cons_self).imp
      intro a b hab
      exact List.cons_lt_cons_iff.mpr (.inr ⟨rfl, hab⟩)
    · intro a ha b hb
      obtain ⟨rest, -, rfl⟩ := List.mem_map.mp ha
      obtain ⟨j, -, rest', -, -, rfl⟩ := mem_placesFrom.mp hb
      apply List.cons_lt_cons_iff.mpr
      left
      omega

lemma places_sorted (t : Tree α) : (t.places p).Pairwise (· < ·) := by
  induction t using child_induction with
  | node l ts ih =>
    rw [places]
    split
    · exact List.pairwise_singleton _ _
    · exact placesFrom_sorted ih

lemma map_labelAt?_placesFrom {ts : List (Tree α)}
    (h : ∀ t ∈ ts, (t.places p).map t.labelAt? = (t.outermost p).map some) (l : α) (before : List (Tree α)) :
    (placesFrom p before.length ts).map (node l (before ++ ts)).labelAt? = (outermosts p ts).map some := by
  induction ts generalizing before with
  | nil => rfl
  | cons t ts ih =>
    have hfirst : (node l (before ++ t :: ts)).labelAt? ∘ (before.length :: ·) = t.labelAt? := by
      funext address
      rw [Function.comp_apply, labelAt?_cons, children, List.getElem?_append_right (Nat.le_refl _), Nat.sub_self]
      rfl
    have hrest := ih (fun s hs => h s (List.mem_cons_of_mem t hs)) (before ++ [t])
    rw [List.length_append, List.length_singleton, List.append_assoc, List.singleton_append] at hrest
    rw [placesFrom, outermosts, List.map_append, List.map_append, List.map_map, hfirst, hrest,
      h t List.mem_cons_self]

lemma map_labelAt?_places (t : Tree α) : (t.places p).map t.labelAt? = (t.outermost p).map some := by
  induction t using child_induction with
  | node l ts ih =>
    rw [places, outermost]
    split
    · rfl
    · exact map_labelAt?_placesFrom ih l []

end Addresses

/-- A walk between two turns of its loops: come to a node, done with all below a node, or ended. -/
inductive Walk (α : Type) where
  | arrived (c : Cursor α) (found : List α)
  | passed (c : Cursor α) (found : List α)
  | ended (found : List α)

namespace Walk

open Cursor

def step (p : α → Bool) : Walk α → Walk α
  | arrived c found =>
    if p c.focus.label then passed c (found ++ [c.focus.label])
    else
      match c.firstChild? with
      | some d => arrived d found
      | none => passed c found
  | passed c found =>
    match c.nextSibling? with
    | some d => arrived d found
    | none =>
      match c.parent? with
      | some d => passed d found
      | none => ended found
  | ended found => ended found

-- The nodes to come count twice, for one turn at each and one after it, and each level is climbed once more.
def turns : Walk α → Nat
  | arrived c _ => 2 * c.pending + c.crumbs.length
  | passed c _ => 2 * c.later + c.crumbs.length + 1
  | ended _ => 0

def outcome (p : α → Bool) : Walk α → List α
  | arrived c found => found ++ (c.focus.outermost p ++ remaining p c.crumbs)
  | passed c found => found ++ remaining p c.crumbs
  | ended found => found

variable {c d : Cursor α}

lemma length_crumbs_firstChild (h : c.firstChild? = some d) : d.crumbs.length = c.crumbs.length + 1 := by
  obtain ⟨t, ts, -, rfl⟩ := exists_of_firstChild? h
  rfl

lemma length_crumbs_nextSibling (h : c.nextSibling? = some d) : d.crumbs.length = c.crumbs.length := by
  obtain ⟨l, before, t, ts, up, hc, rfl⟩ := exists_of_nextSibling? h
  rw [hc]
  rfl

inductive Turn (p : α → Bool) : Walk α → Walk α → Prop
  | take {c : Cursor α} {found : List α} :
      p c.focus.label = true → Turn p (arrived c found) (passed c (found ++ [c.focus.label]))
  | descend {c d : Cursor α} {found : List α} :
      ¬p c.focus.label = true → c.firstChild? = some d → Turn p (arrived c found) (arrived d found)
  | leave {c : Cursor α} {found : List α} :
      ¬p c.focus.label = true → c.firstChild? = none → Turn p (arrived c found) (passed c found)
  | advance {c d : Cursor α} {found : List α} :
      c.nextSibling? = some d → Turn p (passed c found) (arrived d found)
  | climb {c d : Cursor α} {found : List α} :
      c.nextSibling? = none → c.parent? = some d → Turn p (passed c found) (passed d found)
  | finish {c : Cursor α} {found : List α} :
      c.nextSibling? = none → c.parent? = none → Turn p (passed c found) (ended found)
  | rest {found : List α} : Turn p (ended found) (ended found)

lemma turn_step (p : α → Bool) (w : Walk α) : Turn p w (w.step p) := by
  cases w with
  | arrived c found =>
    by_cases hp : p c.focus.label = true
    · rw [step, if_pos hp]
      exact .take hp
    · rw [step, if_neg hp]
      cases hc : c.firstChild? with
      | some d => exact .descend hp hc
      | none => exact .leave hp hc
  | passed c found =>
    rw [step]
    cases hn : c.nextSibling? with
    | some d => exact .advance hn
    | none =>
      cases hq : c.parent? with
      | some d => exact .climb hn hq
      | none => exact .finish hn hq
  | ended found => exact .rest

variable {w v : Walk α}

lemma Turn.turns_le (h : Turn p w v) : v.turns ≤ w.turns - 1 := by
  have hpending (c : Cursor α) : c.pending = c.focus.size + c.later := rfl
  cases h with
  | @take c | @leave c =>
    have hsize := c.focus.size_pos
    simp only [turns, hpending]
    omega
  | descend _ hc =>
    have hless := pending_firstChild hc
    have hdeeper := length_crumbs_firstChild hc
    simp only [turns]
    omega
  | advance hn =>
    have hnext := pending_nextSibling hn
    have hlevel := length_crumbs_nextSibling hn
    simp only [turns]
    omega
  | climb hn hq =>
    have hsame := later_parent hn hq
    have hless := crumbs_parent hq
    simp only [turns]
    omega
  | finish => exact Nat.zero_le _
  | rest => exact Nat.le_refl 0

lemma Turn.outcome_eq (h : Turn p w v) : v.outcome p = w.outcome p := by
  cases h with
  | take hp => simp only [outcome, outermost_of_pos hp, List.append_assoc]
  | descend hp hc => simp only [outcome, remaining_firstChild hc, outermost_of_neg hp]
  | leave hp hc =>
    simp only [outcome, outermost_of_neg hp, children_of_firstChild_none hc, outermosts, List.nil_append]
  | advance hn => simp only [outcome, remaining_nextSibling hn]
  | climb hn hq => simp only [outcome, remaining_parent hn hq]
  | finish hn hq => simp only [outcome, crumbs_of_parent_none hq, remaining, List.flatMap_nil, List.append_nil]
  | rest => rfl

lemma eq_ended_of_turns (h : w.turns = 0) : w = ended (w.outcome p) := by
  cases w with
  | arrived c found =>
    have hsize := c.focus.size_pos
    simp only [turns, pending] at h
    omega
  | passed c found => simp [turns] at h
  | ended found => rfl

lemma iterate_step {n : Nat} (h : w.turns ≤ n) : (step p)^[n] w = ended (w.outcome p) := by
  induction n generalizing w with
  | zero => exact eq_ended_of_turns (Nat.le_zero.mp h)
  | succ n ih =>
    have hturn := turn_step p w
    have hturns := hturn.turns_le
    rw [Function.iterate_succ_apply, ih (by omega), hturn.outcome_eq]

end Walk

theorem walk_collects_outermost (p : α → Bool) (t : Tree α) (found : List α) :
    (Walk.step p)^[2 * t.size] (.arrived (.atRoot t) found) = .ended (found ++ t.outermost p) ∧
      (Cursor.atRoot t).collect p found.reverse = found ++ t.outermost p ∧
      ∃ places : List (List Nat), places.Pairwise (· < ·) ∧
        (∀ address, address ∈ places ↔ t.IsOutermost p address) ∧
        places.map t.labelAt? = (t.outermost p).map some := by
  refine ⟨?_, ?_, t.places p, t.places_sorted, fun address => mem_places, t.map_labelAt?_places⟩
  · have hroot : (Walk.arrived (.atRoot t) found).outcome p = found ++ t.outermost p := by
      simp [Walk.outcome, Cursor.atRoot, Cursor.remaining]
    rw [← hroot]
    apply Walk.iterate_step
    simp [Walk.turns, Cursor.pending, Cursor.later, Cursor.atRoot]
  · rw [Cursor.collect_eq, List.reverse_reverse]
    simp [Cursor.atRoot, Cursor.remaining]

end Marginalia.Source.Tree
