import Marginalia.Proofs.FileTree.Reach

/-! The ways that paths take through a tree, piece by piece and link by link. A way along one path and then
another is two ways in a row, so nothing lies below a file, and what a path leads to below a base it could lead
to from elsewhere. -/

namespace Marginalia.FileTree

open Marginalia.Path (join IsName)

/-- From `place`, and with so many links to be followed at most, the pieces lead to `final`; the last number
tells how many links could still be followed. -/
inductive Leads (tree : FileTree) (final : Place) : Nat → Place → List Text → Nat → Prop
  | done {links : Nat} : Leads tree final links final [] links
  | filler {links left : Nat} {place : Place} {piece : Text} {rest : List Text} :
      tree.isDirectoryAt place = true → Path.isFiller piece = true → Leads tree final links place rest left →
      Leads tree final links place (piece :: rest) left
  | parent {links left : Nat} {place : Place} {rest : List Text} :
      tree.isDirectoryAt place = true → Leads tree final links place.tail rest left →
      Leads tree final links place (['.', '.'] :: rest) left
  | entry {links left : Nat} {place : Place} {piece : Text} {rest : List Text} {node : Node} :
      tree.isDirectoryAt place = true → IsName piece → tree.node? (piece :: place) = some node →
      (∀ target, node ≠ .link target) → Leads tree final links (piece :: place) rest left →
      Leads tree final links place (piece :: rest) left
  | link {links left : Nat} {place : Place} {piece target : Text} {rest : List Text} :
      tree.isDirectoryAt place = true → IsName piece → tree.node? (piece :: place) = some (.link target) →
      Leads tree final links (if Path.isAbsolute target then [] else place) (target.splitOn '/' ++ rest) left →
      Leads tree final (links + 1) place (piece :: rest) left

variable {tree : FileTree} {place final : Place} {front rest pieces : List Text} {links left : Nat}
  {root path piece : Text}

lemma followWith_cons {onLink : Place → List Text → Except FileError Place} (hd : tree.isDirectoryAt place = true) :
    tree.followWith .existing onLink place (piece :: rest) =
      if Path.isFiller piece then tree.followWith .existing onLink place rest
      else if piece = ['.', '.'] then tree.followWith .existing onLink place.tail rest
      else match tree.node? (piece :: place) with
        | none => .error .missing
        | some (.link target) => onLink (if Path.isAbsolute target then [] else place) (target.splitOn '/' ++ rest)
        | some _ => tree.followWith .existing onLink (piece :: place) rest := by
  rw [followWith, hd]
  rfl

lemma exists_leads_of_followWith {onLink : Place → List Text → Except FileError Place}
    (hlink : ∀ place pieces, onLink place pieces = .ok final →
      ∃ fewer left, links = fewer + 1 ∧ Leads tree final fewer place pieces left)
    (h : tree.followWith .existing onLink place pieces = .ok final) :
    ∃ left, Leads tree final links place pieces left := by
  induction pieces generalizing place with
  | nil =>
    obtain rfl := Except.ok.inj h
    exact ⟨links, .done⟩
  | cons piece rest ih =>
    by_cases hd : tree.isDirectoryAt place = true
    · rw [followWith_cons hd] at h
      split at h
      case isTrue hf =>
        obtain ⟨left, hl⟩ := ih h
        exact ⟨left, .filler hd hf hl⟩
      case isFalse hf =>
        rw [Bool.not_eq_true] at hf
        split at h
        case isTrue hp =>
          obtain ⟨left, hl⟩ := ih h
          exact ⟨left, hp ▸ .parent hd hl⟩
        case isFalse hp =>
          split at h
          case h_1 => cases h
          case h_2 target hn =>
            obtain ⟨fewer, left, rfl, hl⟩ := hlink _ _ h
            exact ⟨left, .link hd ⟨hf, hp⟩ hn hl⟩
          case h_3 node hnode hn =>
            obtain ⟨left, hl⟩ := ih h
            exact ⟨left, .entry hd ⟨hf, hp⟩ hn hnode hl⟩
    · simp [followWith, hd] at h

theorem follow_eq_ok_iff :
    tree.follow .existing links place pieces = .ok final ↔ ∃ left, Leads tree final links place pieces left := by
  constructor
  · intro h
    induction links generalizing place pieces with
    | zero => exact exists_leads_of_followWith (fun _ _ h => by cases h) h
    | succ links ih =>
      refine exists_leads_of_followWith (fun place pieces h => ?_) h
      obtain ⟨left, hl⟩ := ih h
      exact ⟨links, left, rfl, hl⟩
  · rintro ⟨left, h⟩
    induction h with
    | @done links => cases links <;> rfl
    | @filler links _ _ _ _ hd hf _ ih =>
      rw [← ih]
      cases links <;> rw [follow, followWith_cons hd, if_pos hf]
    | @parent links _ _ _ hd _ ih =>
      rw [← ih]
      cases links <;> rw [follow, followWith_cons hd, if_neg (by decide), if_pos rfl]
    | @entry links _ place piece rest node hd hp hn hnode _ ih =>
      rw [← ih]
      cases node with
      | link target => exact absurd rfl (hnode target)
      | file content => cases links <;> simp [follow, followWith_cons hd, hp.1, hp.2, hn]
      | directory => cases links <;> simp [follow, followWith_cons hd, hp.1, hp.2, hn]
    | link hd hp hn _ ih => simp [follow, followWith_cons hd, hp.1, hp.2, hn, ih]

namespace Leads

lemma append {middle : Place} {between : Nat} (hfront : Leads tree middle links place front between)
    (hrest : Leads tree final between middle rest left) : Leads tree final links place (front ++ rest) left := by
  induction hfront with
  | done => exact hrest
  | filler hd hf _ ih => exact .filler hd hf (ih hrest)
  | parent hd _ ih => exact .parent hd (ih hrest)
  | entry hd hname hn hnode _ ih => exact .entry hd hname hn hnode (ih hrest)
  | link hd hname hn _ ih =>
    have h := ih hrest
    rw [List.append_assoc] at h
    exact .link hd hname hn h

lemma split (h : Leads tree final links place (front ++ rest) left) :
    ∃ middle between, Leads tree middle links place front between ∧ Leads tree final between middle rest left := by
  generalize hp : front ++ rest = pieces at h
  induction h generalizing front with
  | done =>
    obtain ⟨rfl, rfl⟩ := List.append_eq_nil_iff.mp hp
    exact ⟨final, _, .done, .done⟩
  | filler hd hf h ih =>
    obtain ⟨rfl, rfl⟩ | ⟨front, rfl, rfl⟩ := List.append_eq_cons_iff.mp hp
    · exact ⟨_, _, .done, .filler hd hf h⟩
    · obtain ⟨middle, between, hfront, hrest⟩ := ih rfl
      exact ⟨middle, between, .filler hd hf hfront, hrest⟩
  | parent hd h ih =>
    obtain ⟨rfl, rfl⟩ | ⟨front, rfl, rfl⟩ := List.append_eq_cons_iff.mp hp
    · exact ⟨_, _, .done, .parent hd h⟩
    · obtain ⟨middle, between, hfront, hrest⟩ := ih rfl
      exact ⟨middle, between, .parent hd hfront, hrest⟩
  | entry hd hname hn hnode h ih =>
    obtain ⟨rfl, rfl⟩ | ⟨front, rfl, rfl⟩ := List.append_eq_cons_iff.mp hp
    · exact ⟨_, _, .done, .entry hd hname hn hnode h⟩
    · obtain ⟨middle, between, hfront, hrest⟩ := ih rfl
      exact ⟨middle, between, .entry hd hname hn hnode hfront, hrest⟩
  | link hd hname hn h ih =>
    obtain ⟨rfl, rfl⟩ | ⟨front, rfl, rfl⟩ := List.append_eq_cons_iff.mp hp
    · exact ⟨_, _, .done, .link hd hname hn h⟩
    · obtain ⟨middle, between, hfront, hrest⟩ := ih (List.append_assoc _ _ _)
      exact ⟨middle, between, .link hd hname hn hfront, hrest⟩

lemma left_le (h : Leads tree final links place pieces left) : left ≤ links := by
  induction h with
  | done => exact Nat.le_refl _
  | filler _ _ _ ih => exact ih
  | parent _ _ ih => exact ih
  | entry _ _ _ _ _ ih => exact ih
  | link _ _ _ _ ih => omega

-- Where paths start says nothing about a way from a given place, and links that are left over do not change it.
lemma elsewhere (h : Leads tree final links place pieces left) (more : Nat) (current : Place) :
    Leads { tree with current } final (links + more) place pieces (left + more) := by
  induction h with
  | done => exact .done
  | filler hd hf _ ih => exact .filler hd hf ih
  | parent hd _ ih => exact .parent hd ih
  | entry hd hname hn hnode _ ih => exact .entry hd hname hn hnode ih
  | link hd hname hn _ ih =>
    rw [Nat.add_right_comm]
    exact .link hd hname hn ih

lemma isDirectoryAt (h : Leads tree final links place (piece :: rest) left) : tree.isDirectoryAt place = true := by
  cases h with
  | filler hd => exact hd
  | parent hd => exact hd
  | entry hd => exact hd
  | link hd => exact hd

lemma eq_of_filler (hf : Path.isFiller piece = true) (h : Leads tree final links place [piece] left) :
    final = place := by
  cases h with
  | filler _ _ h =>
    cases h
    rfl
  | parent => cases hf
  | entry _ hname => simp [hname.1] at hf
  | link _ hname => simp [hname.1] at hf

end Leads

lemma resolve_eq_ok_iff : tree.resolve .existing path = .ok final ↔ path ≠ [] ∧
    ∃ left, Leads tree final linkLimit (if Path.isAbsolute path then [] else tree.current) (path.splitOn '/') left := by
  rw [resolve, ← follow_eq_ok_iff]
  split
  · next h => simp [List.isEmpty_iff.mp h]
  · next h => simp [List.isEmpty_iff.not.mp h]

lemma isFile_iff : tree.isFile path = true ↔
    ∃ place content, tree.resolve .existing path = .ok place ∧ tree.node? place = some (.file content) := by
  rw [isFile, find]
  cases tree.resolve .existing path with
  | error e => simp [bind, Except.bind]
  | ok place => cases h : tree.node? place with
    | none => simp [bind, Except.bind, h]
    | some node => cases node <;> simp [bind, Except.bind, h]

def Fileless (path : Text) : Prop := ∀ tree : FileTree, tree.isFile path = false

lemma Fileless.of_filler (hs : path.splitOn '/' = front ++ [piece]) (hf : Path.isFiller piece = true) :
    Fileless path := by
  intro tree
  rw [Bool.eq_false_iff]
  intro h
  obtain ⟨place, content, hr, hn⟩ := isFile_iff.mp h
  obtain ⟨-, left, hl⟩ := resolve_eq_ok_iff.mp hr
  rw [hs] at hl
  obtain ⟨middle, between, -, hlast⟩ := hl.split
  have hd := of_decide_eq_true hlast.isDirectoryAt
  rw [hlast.eq_of_filler hf, hd] at hn
  cases hn

lemma splitOn_join_of_isFile (h : tree.isFile root = true) (ha : Path.isAbsolute path = false) :
    (join root path).splitOn '/' = root.splitOn '/' ++ path.splitOn '/' := by
  have hr : root ≠ [] := by
    rintro rfl
    cases h
  obtain ⟨front, -, hfront | hfront, hj⟩ := Path.exists_splitOn_join hr ha
  · rw [hj, hfront]
  · rw [Fileless.of_filler hfront rfl tree] at h
    cases h

lemma resolve_join_ne_ok (h : tree.isFile root = true) (ha : Path.isAbsolute path = false) :
    tree.resolve .existing (join root path) ≠ .ok final := by
  intro hres
  obtain ⟨place, content, hr, hn⟩ := isFile_iff.mp h
  obtain ⟨hne, left, hroot⟩ := resolve_eq_ok_iff.mp hr
  obtain ⟨-, _, hl⟩ := resolve_eq_ok_iff.mp hres
  rw [splitOn_join_of_isFile h ha, Path.isAbsolute_join hne ha] at hl
  obtain ⟨middle, between, hfront, hrest⟩ := hl.split
  have hsame : middle = place :=
    Except.ok.inj ((follow_eq_ok_iff.mpr ⟨_, hfront⟩).symm.trans (follow_eq_ok_iff.mpr ⟨_, hroot⟩))
  obtain ⟨first, pieces, hs⟩ := List.exists_cons_of_ne_nil (List.splitOn_ne_nil '/' path)
  rw [hs] at hrest
  have hd := of_decide_eq_true hrest.isDirectoryAt
  rw [hsame, hn] at hd
  cases hd

lemma Fileless.join (h : Fileless path) (base : Text) : Fileless (join base path) := by
  by_cases ha : Path.isAbsolute path = true
  · rwa [Path.join_of_isAbsolute ha]
  by_cases hb : base = []
  · rwa [hb, Path.nil_join]
  rw [Bool.not_eq_true] at ha
  obtain ⟨front, -, -, hj⟩ := Path.exists_splitOn_join hb ha
  by_cases hp : path = []
  · rw [hp, List.splitOn_nil] at hj
    exact hp ▸ .of_filler hj rfl
  intro tree
  rw [Bool.eq_false_iff]
  intro hfile
  obtain ⟨place, content, hr, hn⟩ := isFile_iff.mp hfile
  obtain ⟨-, left, hl⟩ := resolve_eq_ok_iff.mp hr
  rw [hj] at hl
  obtain ⟨middle, between, hfront, hrest⟩ := hl.split
  -- The second way is one along the path alone, in the tree that starts where the first way ends.
  have hmore := hrest.elsewhere (linkLimit - between) middle
  rw [Nat.add_sub_cancel' hfront.left_le] at hmore
  have hres : FileTree.resolve { tree with current := middle } .existing path = .ok place :=
    resolve_eq_ok_iff.mpr ⟨hp, _, by rwa [ha]⟩
  have hf : FileTree.isFile { tree with current := middle } path = true := isFile_iff.mpr ⟨place, content, hres, hn⟩
  rw [h] at hf
  cases hf

end Marginalia.FileTree
