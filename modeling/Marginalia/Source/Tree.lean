/-!
Ordered trees with labelled nodes, and cursors on them. A cursor moves to the first child, to the
next sibling or to the parent, where there is one; `Cursor.collect` walks a whole tree by these
moves alone, without recursion on the tree.
-/

namespace Marginalia.Source

inductive Tree (α : Type) where
  | node (label : α) (children : List (Tree α))

namespace Tree

variable {α : Type}

def label : Tree α → α
  | node l _ => l

def children : Tree α → List (Tree α)
  | node _ ts => ts

def leaf (l : α) : Tree α := node l []

mutual

def size : Tree α → Nat
  | node _ ts => sizes ts + 1

def sizes : List (Tree α) → Nat
  | [] => 0
  | t :: ts => size t + sizes ts

end

theorem size_pos (t : Tree α) : 0 < t.size := by
  cases t
  simp [size]

mutual

def outermost (p : α → Bool) : Tree α → List α
  | node l ts => if p l then [l] else outermosts p ts

def outermosts (p : α → Bool) : List (Tree α) → List α
  | [] => []
  | t :: ts => outermost p t ++ outermosts p ts

end

/-- What a cursor leaves behind on its way down: the parent's label and the siblings before (nearest
first) and after. -/
structure Crumb (α : Type) where
  label : α
  before : List (Tree α)
  after : List (Tree α)

structure Cursor (α : Type) where
  focus : Tree α
  crumbs : List (Crumb α)

namespace Cursor

def atRoot (t : Tree α) : Cursor α := ⟨t, []⟩

def firstChild? (c : Cursor α) : Option (Cursor α) :=
  match c.focus with
  | node l (t :: ts) => some ⟨t, ⟨l, [], ts⟩ :: c.crumbs⟩
  | node _ [] => none

def nextSibling? (c : Cursor α) : Option (Cursor α) :=
  match c.crumbs with
  | ⟨l, before, t :: ts⟩ :: up => some ⟨t, ⟨l, c.focus :: before, ts⟩ :: up⟩
  | _ => none

def parent? (c : Cursor α) : Option (Cursor α) :=
  match c.crumbs with
  | ⟨l, before, after⟩ :: up => some ⟨node l (before.reverse ++ c.focus :: after), up⟩
  | [] => none

def later (c : Cursor α) : Nat := c.crumbs.foldr (fun crumb n => sizes crumb.after + n) 0

def pending (c : Cursor α) : Nat := c.focus.size + c.later

theorem pending_firstChild {c d : Cursor α} (h : c.firstChild? = some d) :
    d.pending < c.pending := by
  obtain ⟨⟨l, ts⟩, crumbs⟩ := c
  cases ts with
  | nil => simp [firstChild?] at h
  | cons t ts =>
    simp only [firstChild?, Option.some.injEq] at h
    subst h
    simp only [pending, later, size, sizes, List.foldr_cons]
    omega

theorem pending_nextSibling {c d : Cursor α} (h : c.nextSibling? = some d) :
    d.pending = c.later := by
  obtain ⟨focus, crumbs⟩ := c
  match crumbs, h with
  | ⟨l, before, t :: ts⟩ :: up, h =>
    simp only [nextSibling?, Option.some.injEq] at h
    subst h
    simp only [pending, later, sizes, List.foldr_cons]
    omega
  | ⟨_, _, []⟩ :: _, h => simp [nextSibling?] at h
  | [], h => simp [nextSibling?] at h

theorem later_parent {c d : Cursor α} (hn : c.nextSibling? = none) (h : c.parent? = some d) :
    d.later = c.later := by
  obtain ⟨focus, crumbs⟩ := c
  match crumbs, hn, h with
  | ⟨_, _, _ :: _⟩ :: _, hn, _ => simp [nextSibling?] at hn
  | ⟨_, _, []⟩ :: _, _, h =>
    simp only [parent?, Option.some.injEq] at h
    subst h
    simp [later, sizes]
  | [], _, h => simp [parent?] at h

theorem crumbs_parent {c d : Cursor α} (h : c.parent? = some d) :
    d.crumbs.length < c.crumbs.length := by
  obtain ⟨focus, crumbs⟩ := c
  cases crumbs with
  | nil => simp [parent?] at h
  | cons crumb up =>
    simp only [parent?, Option.some.injEq] at h
    subst h
    simp

def following? (c : Cursor α) : Option (Cursor α) :=
  match c.nextSibling? with
  | some s => some s
  | none =>
    match _h : c.parent? with
    | some p => following? p
    | none => none
termination_by c.crumbs.length
decreasing_by exact crumbs_parent _h

theorem pending_following {c d : Cursor α} (h : c.following? = some d) : d.pending = c.later := by
  fun_induction following? c with
  | case1 c s hs =>
    rw [Option.some.injEq] at h
    exact h ▸ pending_nextSibling hs
  | case2 c hn p hp ih => exact (ih h).trans (later_parent hn hp)
  | case3 => simp at h

theorem pending_following_lt {c d : Cursor α} (h : c.following? = some d) :
    d.pending < c.pending := by
  rw [pending_following h, pending]
  have := c.focus.size_pos
  omega

/-- The labels that satisfy `p`, met on a walk from the cursor on that does not go below such a
node, after those already found (latest first). -/
def collect (p : α → Bool) (c : Cursor α) (found : List α) : List α :=
  if p c.focus.label then
    match _h : c.following? with
    | some d => collect p d (c.focus.label :: found)
    | none => (c.focus.label :: found).reverse
  else
    match _hc : c.firstChild? with
    | some d => collect p d found
    | none =>
      match _h : c.following? with
      | some d => collect p d found
      | none => found.reverse
termination_by c.pending
decreasing_by
  · exact pending_following_lt _h
  · exact pending_firstChild _hc
  · exact pending_following_lt _h

end Cursor

end Tree

end Marginalia.Source
