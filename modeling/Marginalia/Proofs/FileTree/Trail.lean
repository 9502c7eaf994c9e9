import Marginalia.Proofs.FileTree.Ways

/-! Trees made for a path: all that they hold is the directories on its way and one file at its end. -/

namespace Marginalia.FileTree

open Marginalia.Path (IsName)

/-- Where a piece of a path leads to, if there are no links. -/
def advance (place : Place) (piece : Text) : Place :=
  if Path.isFiller piece then place else if piece = ['.', '.'] then place.tail else piece :: place

def destination (place : Place) (pieces : List Text) : Place := pieces.foldl advance place

def trail (place : Place) : List Text → List Place
  | [] => [place]
  | piece :: rest => place :: trail (advance place piece) rest

variable {tree : FileTree} {place : Place} {front pieces : List Text} {name path : Text}

lemma mem_trail_self : place ∈ trail place pieces := by
  cases pieces <;> simp [trail]

lemma destination_mem_trail : destination place pieces ∈ trail place pieces := by
  induction pieces generalizing place with
  | nil => exact List.mem_singleton_self place
  | cons piece rest ih => exact List.mem_cons_of_mem _ ih

lemma mem_of_mem_advance {piece : Text} (h : name ∈ advance place piece) : name = piece ∨ name ∈ place := by
  rw [advance] at h
  split at h
  · exact .inr h
  split at h
  · exact .inr (List.mem_of_mem_tail h)
  · exact List.mem_cons.mp h

lemma mem_of_mem_trail {v : Place} (hv : v ∈ trail place pieces) (hn : name ∈ v) :
    name ∈ pieces ∨ name ∈ place := by
  induction pieces generalizing place with
  | nil =>
    obtain rfl := List.mem_singleton.mp hv
    exact .inr hn
  | cons piece rest ih =>
    rcases List.mem_cons.mp hv with rfl | hv
    · exact .inr hn
    · rcases ih hv with h | h
      · exact .inl (List.mem_cons_of_mem _ h)
      · rcases mem_of_mem_advance h with rfl | h
        · exact .inl List.mem_cons_self
        · exact .inr h

lemma length_le_advance {piece : Text} (h : piece ≠ ['.', '.']) : place.length ≤ (advance place piece).length := by
  rw [advance, if_neg h]
  split
  · exact Nat.le_refl _
  · exact Nat.le_succ _

lemma length_le_of_mem_trail {v : Place} (hp : ['.', '.'] ∉ pieces) (hv : v ∈ trail place pieces) :
    v.length ≤ (destination place pieces).length := by
  induction pieces generalizing place v with
  | nil =>
    obtain rfl := List.mem_singleton.mp hv
    exact Nat.le_refl _
  | cons piece rest ih =>
    rw [List.mem_cons, not_or] at hp
    rcases List.mem_cons.mp hv with rfl | hv
    · have hnext : advance v piece ∈ trail (advance v piece) rest := mem_trail_self
      exact (length_le_advance (Ne.symm hp.1)).trans (ih hp.2 hnext)
    · exact ih hp.2 hv

lemma notMem_trail (h : name ∉ pieces ∨ ['.', '.'] ∉ pieces) : name :: destination [] pieces ∉ trail [] pieces := by
  intro hm
  rcases h with h | h
  · rcases mem_of_mem_trail hm List.mem_cons_self with hp | hp
    · exact h hp
    · cases hp
  · have hl := length_le_of_mem_trail h hm
    rw [List.length_cons] at hl
    omega

lemma leads_trail (h : ∀ v ∈ trail place pieces, tree.isDirectoryAt v = true) (links : Nat) :
    Leads tree (destination place pieces) links place pieces links := by
  induction pieces generalizing place with
  | nil => exact .done
  | cons piece rest ih =>
    rw [trail, List.forall_mem_cons] at h
    obtain ⟨hd, h⟩ := h
    have hnext : tree.isDirectoryAt (advance place piece) = true := h _ mem_trail_self
    have hrest := ih h
    rw [destination, List.foldl_cons, ← destination]
    by_cases hf : Path.isFiller piece = true
    · have hadvance : advance place piece = place := if_pos hf
      rw [hadvance] at hrest ⊢
      exact .filler hd hf hrest
    by_cases hp : piece = ['.', '.']
    · subst hp
      exact .parent hd hrest
    · have hadvance : advance place piece = piece :: place := by rw [advance, if_neg hf, if_neg hp]
      rw [hadvance] at hnext hrest ⊢
      exact .entry hd ⟨Bool.eq_false_iff.mpr hf, hp⟩ (of_decide_eq_true hnext) (by simp) hrest

lemma trail_concat_nil : trail place (pieces ++ [[]]) = trail place pieces ++ [destination place pieces] := by
  induction pieces generalizing place with
  | nil => rfl
  | cons piece rest ih =>
    rw [List.cons_append, trail, ih]
    rfl

lemma destination_concat_nil : destination place (pieces ++ [[]]) = destination place pieces := by
  rw [destination, List.foldl_append, ← destination]
  rfl

/-- The directories on the way along pieces of a path, and a file in the last. -/
def lone (pieces : List Text) (name : Text) : FileTree where
  nodes := (trail [] pieces).map (fun p => (p, .directory)) ++ [(name :: destination [] pieces, .file [])]

lemma lookup_directories (places : List Place) :
    (places.map fun p => (p, Node.directory)).lookup place =
      if place ∈ places then some .directory else none := by
  induction places with
  | nil => rfl
  | cons p places ih =>
    rw [List.map_cons, List.lookup_cons, ih]
    by_cases h : place = p
    · simp [h]
    · simp [h, beq_eq_false_iff_ne.mpr h]

lemma isDirectoryAt_lone (h : place ∈ trail [] pieces) : (lone pieces name).isDirectoryAt place = true := by
  simp [isDirectoryAt, node?, lone, List.lookup_append, lookup_directories, h]

lemma node?_lone (h : name ∉ pieces ∨ ['.', '.'] ∉ pieces) :
    (lone pieces name).node? (name :: destination [] pieces) = some (.file []) := by
  simp [node?, lone, List.lookup_append, lookup_directories, notMem_trail h]

lemma mem_of_node?_lone {entry : Text} {node : Node} (h : (lone pieces name).node? (entry :: place) = some node) :
    entry ∈ pieces ∨ entry = name := by
  rcases List.mem_append.mp (mem_nodes h) with h | h
  · obtain ⟨v, hv, he⟩ := List.mem_map.mp h
    obtain ⟨rfl, -⟩ := Prod.mk.inj he
    exact (mem_of_mem_trail hv List.mem_cons_self).imp_right fun h => by simp at h
  · have he := (Prod.mk.inj (List.mem_singleton.mp h)).1
    exact .inr (List.cons.inj he).1

lemma resolve_lone (hp : path ≠ []) :
    (lone (path.splitOn '/') name).resolve .existing path = .ok (destination [] (path.splitOn '/')) := by
  refine resolve_eq_ok_iff.mpr ⟨hp, linkLimit, ?_⟩
  rw [show (lone (path.splitOn '/') name).current = [] from rfl, ite_self]
  exact leads_trail (fun _ => isDirectoryAt_lone) linkLimit

lemma isFile_lone (hs : path.splitOn '/' = front ++ [name]) (hfront : pieces = front ∨ pieces = front ++ [[]])
    (hname : IsName name) (hn : name ∉ pieces ∨ ['.', '.'] ∉ pieces) : (lone pieces name).isFile path = true := by
  have hplace : destination [] front = destination [] pieces := by
    rcases hfront with rfl | rfl
    · rfl
    · rw [destination_concat_nil]
  have hdirs : ∀ v ∈ trail [] front, (lone pieces name).isDirectoryAt v = true := by
    intro v hv
    apply isDirectoryAt_lone
    rcases hfront with rfl | rfl
    · exact hv
    · rw [trail_concat_nil]
      exact List.mem_append_left _ hv
  have hp : path ≠ [] := by
    rintro rfl
    have hm : name ∈ [].splitOn '/' := hs ▸ List.mem_concat_self
    rw [List.splitOn_nil, List.mem_singleton] at hm
    rw [hm] at hname
    cases hname.1
  have hnode := node?_lone hn
  rw [← hplace] at hnode
  have hlast : Leads (lone pieces name) (name :: destination [] front) linkLimit (destination [] front) [name]
      linkLimit := .entry (hdirs _ destination_mem_trail) hname hnode (by simp) .done
  refine isFile_iff.mpr ⟨_, _, resolve_eq_ok_iff.mpr ⟨hp, linkLimit, ?_⟩, hnode⟩
  rw [hs, show (lone pieces name).current = [] from rfl, ite_self]
  exact (leads_trail hdirs linkLimit).append hlast

lemma not_fileless (hs : path.splitOn '/' = front ++ [name]) (hname : IsName name)
    (h : name ∉ front ∨ ['.', '.'] ∉ front) : ¬Fileless path := by
  intro hf
  have hfile := isFile_lone hs (.inl rfl) hname h
  rw [hf] at hfile
  cases hfile

end Marginalia.FileTree
