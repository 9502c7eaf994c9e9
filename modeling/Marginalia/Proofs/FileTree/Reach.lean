import Marginalia.FileTree.Walk
import Marginalia.Proofs.Path.Join
import Mathlib.Tactic.Lemma

/-! What walks through a file tree come upon: the files in the directories that they get into, entry by
entry, from the one they start in. -/

namespace Marginalia.FileTree

open Marginalia.Path (join)

variable {tree : FileTree} {admits : Text → Bool → Bool} {enters keeps : Text → Prop}
  {chain : List Place} {place next : Place} {name path start p : Text}

/-- The directory that an entry stands for: itself, or where a link leads to, unless it is open. -/
inductive Subdirectory (tree : FileTree) (chain : List Place) (place : Place) (name : Text) : Place → Prop
  | entry : tree.node? (name :: place) = some .directory → Subdirectory tree chain place name (name :: place)
  | link {text : Text} {target : Place} : tree.node? (name :: place) = some (.link text) →
      tree.follow .existing linkLimit place [name] = .ok target → tree.isDirectoryAt target = true →
      target ∉ chain → Subdirectory tree chain place name target

/-- An entry that is no directory, where a link counts as what it leads to. -/
inductive Leaf (tree : FileTree) (place : Place) (name : Text) : Prop
  | file {content : Bytes} : tree.node? (name :: place) = some (.file content) → Leaf tree place name
  | link {text : Text} {target : Place} : tree.node? (name :: place) = some (.link text) →
      tree.follow .existing linkLimit place [name] = .ok target → ¬tree.isDirectoryAt target = true →
      Leaf tree place name

/-- A walk from `start` gets into the directory at `path`, with the listed directories open, the innermost
first. -/
inductive Opens (tree : FileTree) (enters : Text → Prop) (start : Text) : List Place → Text → Prop
  | start {place : Place} : tree.resolve .existing start = .ok place → tree.isDirectoryAt place = true →
      enters start → Opens tree enters start [place] start
  | next {chain : List Place} {place next : Place} {path name : Text} :
      Opens tree enters start (place :: chain) path → Subdirectory tree (place :: chain) place name next →
      enters (join path name) → Opens tree enters start (next :: place :: chain) (join path name)

def Reaches (tree : FileTree) (enters keeps : Text → Prop) (start path : Text) : Prop :=
  ∃ place chain above name, Opens tree enters start (place :: chain) above ∧ Leaf tree place name ∧
    path = join above name ∧ keeps path

lemma mem_namesIn {node : Node} (h : tree.node? (name :: place) = some node) : name ∈ tree.namesIn place := by
  rw [namesIn, List.mem_filterMap]
  exact ⟨_, mem_nodes h, if_pos rfl⟩

lemma mem_filesIn_of_leaf (h : Leaf tree place name) (ha : admits (join path name) false = true) :
    join path name ∈ tree.filesIn admits chain place path := by
  rw [filesIn, List.mem_flatMap]
  cases h with
  | file hn =>
    refine ⟨name, mem_namesIn hn, ?_⟩
    split <;> simp_all
  | link hn hf hd =>
    refine ⟨name, mem_namesIn hn, ?_⟩
    split <;> simp_all

lemma mem_filesIn_of_subdirectory (h : Subdirectory tree chain place name next)
    (ha : admits (join path name) true = true)
    (hp : p ∈ tree.filesIn admits (next :: chain) next (join path name)) :
    p ∈ tree.filesIn admits chain place path := by
  rw [filesIn, List.mem_flatMap]
  cases h with
  | entry hn =>
    refine ⟨name, mem_namesIn hn, ?_⟩
    split <;> simp_all
  | link hn hf hd hc =>
    refine ⟨name, mem_namesIn hn, ?_⟩
    split <;> simp_all

lemma mem_filesIn_cases (h : p ∈ tree.filesIn admits chain place path) :
    ∃ name, (Leaf tree place name ∧ p = join path name ∧ admits p false = true) ∨
      ∃ next, Subdirectory tree chain place name next ∧ admits (join path name) true = true ∧
        p ∈ tree.filesIn admits (next :: chain) next (join path name) := by
  rw [filesIn, List.mem_flatMap] at h
  obtain ⟨name, -, h⟩ := h
  refine ⟨name, ?_⟩
  split at h
  case h_1 => simp at h
  case h_2 content hn =>
    obtain ⟨ha, rfl⟩ : admits (join path name) false = true ∧ p = join path name := by simpa using h
    exact .inl ⟨.file hn, rfl, ha⟩
  case h_3 hn =>
    obtain ⟨ha, hp⟩ := List.mem_ite_nil_right.mp h
    exact .inr ⟨_, .entry hn, ha, hp⟩
  case h_4 text hn =>
    split at h
    case h_1 => simp at h
    case h_2 target hf =>
      split at h
      case isTrue hd =>
        rw [List.mem_dite_nil_left] at h
        obtain ⟨hc, h⟩ := h
        obtain ⟨ha, hp⟩ := List.mem_ite_nil_right.mp h
        exact .inr ⟨target, .link hn hf hd hc, ha, hp⟩
      case isFalse hd =>
        obtain ⟨ha, rfl⟩ : admits (join path name) false = true ∧ p = join path name := by simpa using h
        exact .inl ⟨.link hn hf hd, rfl, ha⟩

lemma reaches_of_mem_filesIn (ho : Opens tree (admits · true) start (place :: chain) path)
    (h : p ∈ tree.filesIn admits (place :: chain) place path) :
    Reaches tree (admits · true) (admits · false) start p := by
  -- The walk's own recursion, with the directories that are open as one list.
  generalize hopen : place :: chain = opened at ho h
  induction opened, place, path using filesIn.induct tree generalizing chain with
  | case1 opened place path ihe ihl =>
    subst hopen
    obtain ⟨name, ⟨hl, hp, ha⟩ | ⟨next, hs, ha, hp⟩⟩ := mem_filesIn_cases h
    · exact ⟨place, chain, path, name, ho, hl, hp, ha⟩
    · have hnext := ho.next hs ha
      cases hs with
      | entry hn => exact ihe name hn rfl hnext hp
      | link hn hf hd hc => exact ihl name next hd hc rfl hnext hp

lemma mem_walk_of_opens (ho : Opens tree (admits · true) start (place :: chain) path)
    (h : p ∈ tree.filesIn admits (place :: chain) place path) : p ∈ tree.walk admits start := by
  generalize hopen : place :: chain = opened at ho h
  induction ho generalizing place chain with
  | start hr hd ha =>
    obtain ⟨rfl, rfl⟩ := List.cons.inj hopen
    simp [walk, hr, hd, ha, h]
  | next ho hs ha ih =>
    obtain ⟨rfl, rfl⟩ := List.cons.inj hopen
    exact ih rfl (mem_filesIn_of_subdirectory hs ha h)

theorem mem_walk_iff : p ∈ tree.walk admits start ↔ Reaches tree (admits · true) (admits · false) start p := by
  constructor
  · intro h
    rw [walk] at h
    split at h
    · simp at h
    case h_2 place hr =>
      obtain ⟨⟨hd, ha⟩, hp⟩ : (tree.isDirectoryAt place = true ∧ admits start true = true) ∧
          p ∈ tree.filesIn admits [place] place start := by simpa using h
      exact reaches_of_mem_filesIn (.start hr hd ha) hp
  · rintro ⟨place, chain, path, name, ho, hl, rfl, ha⟩
    exact mem_walk_of_opens ho (mem_filesIn_of_leaf hl ha)

lemma Opens.begins (h : Opens tree enters start chain path) :
    ∃ place, tree.resolve .existing start = .ok place ∧ tree.isDirectoryAt place = true ∧ enters start := by
  induction h with
  | start hr hd he => exact ⟨_, hr, hd, he⟩
  | next _ _ _ ih => exact ih

lemma Opens.not_isFile (h : Opens tree enters start chain path) : ¬tree.isFile start = true := by
  obtain ⟨place, hr, hd, -⟩ := h.begins
  have hn := of_decide_eq_true hd
  simp [isFile, find, hr, hn, bind, Except.bind]

lemma Opens.components_isPrefix
    (hrel : ∀ place name node, tree.node? (name :: place) = some node → Path.isAbsolute name = false)
    (hs : start ≠ []) (h : Opens tree enters start chain path) :
    path ≠ [] ∧ Path.components start <+: Path.components path := by
  induction h with
  | start => exact ⟨hs, List.prefix_rfl⟩
  | @next chain place next path name _ hsub _ ih =>
    have ha : Path.isAbsolute name = false := by
      cases hsub with
      | entry hn => exact hrel place name _ hn
      | link hn => exact hrel place name _ hn
    rw [Path.components_join ih.1 ha]
    exact ⟨Path.join_ne_nil ih.1 ha, ih.2.trans (List.prefix_append _ _)⟩

open Marginalia.Path (Anchored Dotted Idle)

lemma Opens.anchored (hs : Anchored start) (h : Opens tree enters start chain path) : Anchored path := by
  induction h with
  | start => exact hs
  | next _ _ _ ih => exact ih.join _

lemma anchored_of_mem_walk (hs : Anchored start) (h : p ∈ tree.walk admits start) : Anchored p := by
  obtain ⟨place, chain, above, name, ho, -, rfl, -⟩ := mem_walk_iff.mp h
  exact (ho.anchored hs).join name

section Joined

variable {base : Text}

lemma filesIn_join (h : ∀ q d, Anchored q → admits (join base q) d = admits q d) (hp : Anchored path) :
    tree.filesIn admits chain place (join base path) =
      (tree.filesIn admits chain place path).map (join base) := by
  induction chain, place, path using filesIn.induct tree with
  | case1 chain place path ihe ihl =>
    rw [filesIn, filesIn, List.map_flatMap]
    congr 1
    funext name
    have hj : join (join base path) name = join base (join path name) := (Path.join_assoc base path name).symm
    have ha (d : Bool) : admits (join base (join path name)) d = admits (join path name) d :=
      h _ d (hp.join name)
    simp only [hj, ha]
    split
    · rfl
    · split <;> rfl
    case h_3 hn =>
      rw [apply_ite (List.map (join base)), ← ihe name hn (hp.join name)]
      rfl
    case h_4 text hn =>
      split
      · rfl
      · split
        case isTrue hd =>
          split
          · rfl
          case isFalse hc =>
            rw [apply_ite (List.map (join base)), ← ihl name _ hd hc (hp.join name)]
            rfl
        case isFalse => split <;> rfl

lemma followWith_filler {purpose : Purpose} {onLink : Place → List Text → Except FileError Place}
    {fillers : List Text} (hf : ∀ piece ∈ fillers, Path.isFiller piece = true)
    (first : Text) (rest : List Text) :
    tree.followWith purpose onLink place (fillers ++ first :: rest) =
      tree.followWith purpose onLink place (first :: rest) := by
  induction fillers with
  | nil => rfl
  | cons piece fillers ih =>
    rw [List.forall_mem_cons] at hf
    rw [List.cons_append, followWith, hf.1, if_pos rfl, ih hf.2]
    split
    case isTrue hd => rw [followWith, if_pos hd]
    case isFalse => rfl

lemma follow_filler {purpose : Purpose} {links : Nat}
    {fillers : List Text} (hf : ∀ piece ∈ fillers, Path.isFiller piece = true)
    (first : Text) (rest : List Text) :
    tree.follow purpose links place (fillers ++ first :: rest) =
      tree.follow purpose links place (first :: rest) := by
  cases links <;> exact followWith_filler hf first rest

lemma resolve_join {purpose : Purpose} (hb : Idle base) (hp : Anchored path) :
    tree.resolve purpose (join base path) = tree.resolve purpose path := by
  rcases hp with hp | hp
  · rw [Path.join_of_isAbsolute hp]
  obtain ⟨fillers, hf, hj⟩ := hb.exists_splitOn_join hp
  have hd := hb.dotted.join hp.isAbsolute
  obtain ⟨rest, hr⟩ := id hp
  have hfill : ∀ piece ∈ ['.'] :: fillers, Path.isFiller piece = true := List.forall_mem_cons.mpr ⟨rfl, hf⟩
  have he : (join base path).isEmpty = false := by simpa using hd.ne_nil
  have he' : path.isEmpty = false := by simpa using hp.ne_nil
  simp only [resolve, he, he', hd.isAbsolute, hp.isAbsolute, hj, hr, follow_filler hfill]

lemma isFile_join (hb : Idle base) (hp : Anchored path) : tree.isFile (join base path) = tree.isFile path := by
  rw [isFile, isFile, find, find, resolve_join hb hp]

lemma walk_join (hb : Idle base) (h : ∀ q d, Anchored q → admits (join base q) d = admits q d)
    (hp : Anchored path) : tree.walk admits (join base path) = (tree.walk admits path).map (join base) := by
  rw [walk, walk, resolve_join hb hp]
  split
  · rfl
  · rw [h _ _ hp, filesIn_join h hp, apply_ite (List.map (join base))]
    rfl

end Joined

end Marginalia.FileTree
