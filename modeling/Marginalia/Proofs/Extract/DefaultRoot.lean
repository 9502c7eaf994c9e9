import Marginalia.Proofs.Extract.Collection
import Marginalia.Proofs.FileTree.Trail

/-! The files of a request without paths. It starts at the root seen from itself: for a relative root, that
is not the root. -/

namespace Marginalia.Extract

namespace Scope

open Marginalia.Path (join Anchored Idle)

variable {s : Scope} {start path : Text}

lemma anchored_of_mem_collect (hs : Anchored start) (h : path ∈ s.collect start) : Anchored path := by
  obtain ⟨-, rfl⟩ | ⟨-, hwalk, -⟩ := mem_collect_cases h
  · exact hs
  · exact FileTree.anchored_of_mem_walk hs hwalk

section Idle

variable (hr : Idle s.root)

include hr

lemma fileName?_join (hp : Anchored path) : Path.fileName? (join s.root path) = Path.fileName? path := by
  rw [Path.fileName?, hr.components_join hp, Path.fileName?]

lemma admits_join {isDirectory : Bool} (hp : Anchored path) :
    s.admits (join s.root path) isDirectory = s.admits path isDirectory := by
  have hskip : isSkipped (join s.root path) = isSkipped path := by
    rw [Bool.eq_iff_iff, isSkipped_iff, isSkipped_iff, Skipped, fileName?_join hr hp, Skipped]
  rw [admits, hskip, hr.relativeTo_join hp, admits]

lemma isWanted_join (hp : Anchored path) : s.isWanted (join s.root path) = s.isWanted path := by
  have hlanguage : s.registry.supports (join s.root path) = s.registry.supports path := by
    rw [Bool.eq_iff_iff, Registry.supports_iff, Registry.supports_iff, Path.extension?, fileName?_join hr hp,
      Path.extension?]
  rw [isWanted, FileTree.isFile_join hr hp, hlanguage, isWanted]

lemma collect_join (hs : Anchored start) :
    s.collect (join s.root start) = (s.collect start).map (join s.root) := by
  rw [collect, collect, FileTree.isFile_join hr hs, FileTree.walk_join hr (fun q d => admits_join hr) hs]
  split
  · rfl
  rw [List.filter_map]
  congr 1
  apply List.filter_congr
  intro q hq
  exact isWanted_join hr (FileTree.anchored_of_mem_walk hs hq)

lemma components_collect_join (hs : Anchored start) :
    (s.collect (join s.root start)).map Path.components = (s.collect start).map Path.components := by
  rw [collect_join hr hs, List.map_map]
  apply List.map_congr_left
  intro q hq
  exact hr.components_join (anchored_of_mem_collect hs hq)

end Idle

end Scope

open Marginalia.Path (join Settled IsName)
open FileTree (lone Fileless)

/-- In every tree and whatever is excluded, a request collects just what the starts stand for. -/
def CollectsFrom (root : Text) (paths starts : List Text) : Prop :=
  ∀ (tree : FileTree) (registry : Registry) (excluded : List Text) (p : Text),
    (∃ q ∈ (Scope.mk tree registry root (Glob.patterns excluded)).files paths, Path.same q p = true) ↔
      ∃ start ∈ starts, ∃ q, Path.same q p = true ∧ Collects tree registry root excluded start q

lemma exists_collects_iff {tree : FileTree} {registry : Registry} {root start p : Text} {excluded : List Text} :
    (∃ q, Path.same q p = true ∧ Collects tree registry root excluded start q) ↔ Path.components p ∈
      ((Scope.mk tree registry root (Glob.patterns excluded)).collect start).map Path.components := by
  simp only [← Path.exists_same_iff, Scope.mem_collect_iff, and_comm]

lemma collectsFrom_root {root : Text} (h : Settled root) : CollectsFrom root [] [root] := by
  intro tree registry excluded p
  rw [Scope.exists_mem_files_iff, if_pos rfl]
  simp only [List.mem_singleton, exists_eq_left, exists_collects_iff]
  by_cases ha : Path.isAbsolute root = true
  · rw [Path.join_of_isAbsolute ha]
  by_cases hn : root = []
  · rw [hn, Path.nil_join]
  have hr : Path.Idle root := .of_filler hn (Bool.not_eq_true _ ▸ ha) (h.resolve_left ha)
  rw [← Scope.components_collect_join hr (.inr hr.dotted)]

lemma Collects.components_isPrefix {tree : FileTree} {registry : Registry} {root start path : Text}
    {excluded : List Text} (hs : start ≠ [])
    (hrel : ∀ place name node, tree.node? (name :: place) = some node → Path.isAbsolute name = false)
    (h : Collects tree registry root excluded start path) : Path.components start <+: Path.components path := by
  rcases h with ⟨-, rfl⟩ | ⟨-, -, place, chain, above, name, ho, hl, rfl, -⟩
  · exact List.prefix_rfl
  · obtain ⟨hne, hp⟩ := ho.components_isPrefix hrel hs
    have ha : Path.isAbsolute name = false := by
      cases hl with
      | file hn => exact hrel place name _ hn
      | link hn => exact hrel place name _ hn
    rw [Path.components_join hne ha]
    exact hp.trans (List.prefix_append _ _)

def freshName (path : Text) : Text := List.replicate (path.length + 1) 'a' ++ Text.lit ".a"

lemma freshName_notMem (path : Text) : freshName path ∉ path.splitOn '/' := by
  intro h
  have := (Text.sublist_of_mem_splitOn _ h).length_le
  simp [freshName] at this
  omega

lemma slash_notMem_freshName (path : Text) : '/' ∉ freshName path := by
  simp [freshName, Text.lit]

lemma nameExtension?_freshName (path : Text) : Path.nameExtension? (freshName path) = some ['a'] := by
  simp [Path.nameExtension?, freshName, Text.lit]

lemma inner_freshName (path : Text) : Path.inner ((freshName path).splitOn '/') = [.name (freshName path)] := by
  rw [List.splitOn_eq_singleton (slash_notMem_freshName path)]
  simp [Path.inner, Path.isFiller, Path.Component.ofPiece, freshName, List.replicate_succ]

section Missed

variable {root : Text} (hr : root ≠ [])

include hr

lemma components_join_freshName :
    Path.components (join root (freshName root)) = Path.components root ++ [.name (freshName root)] := by
  rw [Path.components_join hr (Path.isAbsolute_of_notMem (slash_notMem_freshName root)), inner_freshName]

lemma collects_lone (hs : ¬Skipped root) :
    Collects (lone (root.splitOn '/') (freshName root)) ⟨[(['a'], .default)]⟩ root [] root
      (join root (freshName root)) := by
  have hname : IsName (freshName root) := by
    simp [IsName, Path.isFiller, freshName, List.replicate_succ]
  have hkept (p : Text) : Kept root [] p := by simp [Kept]
  have hslash := slash_notMem_freshName root
  obtain ⟨front, -, hfront, hj⟩ := Path.exists_splitOn_join hr (Path.isAbsolute_of_notMem hslash)
  rw [List.splitOn_eq_singleton hslash] at hj
  refine .inr ⟨FileTree.isFile_lone hj hfront hname (.inl (freshName_notMem root)),
    ⟨['a'], List.mem_singleton_self _, ?_⟩, ?_⟩
  · rw [Path.extension?, Path.fileName?, components_join_freshName hr, List.getLast?_concat]
    exact nameExtension?_freshName root
  · have hopen : FileTree.Opens (lone (root.splitOn '/') (freshName root)) (fun p => ¬Skipped p ∧ Kept root [] p) root
        [FileTree.destination [] (root.splitOn '/')] root :=
      .start (FileTree.resolve_lone hr) (FileTree.isDirectoryAt_lone FileTree.destination_mem_trail) ⟨hs, hkept root⟩
    exact ⟨_, _, _, _, hopen, .file (FileTree.node?_lone (.inl (freshName_notMem root))), rfl, hkept _⟩

lemma not_collects_lone (ha : Path.isAbsolute root = false)
    (hf : ¬∀ piece ∈ root.splitOn '/', Path.isFiller piece = true) {registry : Registry} {q : Text}
    (hc : Collects (lone (root.splitOn '/') (freshName root)) registry root [] (join root root) q) :
    Path.components q ≠ Path.components (join root (freshName root)) := by
  intro heq
  have hrel : ∀ place name node, (lone (root.splitOn '/') (freshName root)).node? (name :: place) = some node →
      Path.isAbsolute name = false := by
    intro place name node hn
    apply Path.isAbsolute_of_notMem
    rcases FileTree.mem_of_node?_lone hn with hn | rfl
    · exact Text.notMem_of_mem_splitOn name hn
    · exact slash_notMem_freshName root
  -- What is found there has the names of the root twice, and the fresh name is none of them.
  have hp := hc.components_isPrefix (Path.join_ne_nil hr ha) hrel
  rw [heq, components_join_freshName hr, Path.components_join hr ha, List.prefix_append_right_inj] at hp
  rcases List.prefix_cons_iff.mp hp with hi | ⟨cs, hi, -⟩
  · exact hf (Path.inner_eq_nil_iff.mp hi)
  · refine freshName_notMem root (Path.mem_of_name_mem_inner ?_)
    rw [hi]
    exact List.mem_cons_self

end Missed

lemma not_collectsFrom_of_not_skipped {root : Text} (h : ¬Settled root) (hs : ¬Skipped root) :
    ¬CollectsFrom root [] [root] := by
  obtain ⟨ha, hf⟩ := not_or.mp h
  rw [Bool.not_eq_true] at ha
  have hr : root ≠ [] := by
    rintro rfl
    exact hf (by simp [Path.isFiller])
  intro hcf
  have hfound := (hcf (lone (root.splitOn '/') (freshName root)) ⟨[(['a'], .default)]⟩ []
    (join root (freshName root))).mpr
      ⟨root, List.mem_singleton_self root, _, Path.same_iff.mpr rfl, collects_lone hr hs⟩
  rw [Scope.exists_mem_files_iff, if_pos rfl] at hfound
  obtain ⟨start, hstart, q, hq, hc⟩ := hfound
  obtain rfl := List.mem_singleton.mp hstart
  exact not_collects_lone hr ha hf hc (Path.same_iff.mp hq)

lemma not_collectsFrom_of_isFile {tree : FileTree} {root : Text} (ha : Path.isAbsolute root = false)
    (h : tree.isFile root = true) : ¬CollectsFrom root [] [root] := by
  intro hcf
  have hfound := (hcf tree .standard [] root).mpr
    ⟨root, List.mem_singleton_self root, root, Path.same_iff.mpr rfl, .inl ⟨h, rfl⟩⟩
  rw [Scope.exists_mem_files_iff, if_pos rfl] at hfound
  obtain ⟨start, hstart, q, -, hc⟩ := hfound
  obtain rfl := List.mem_singleton.mp hstart
  rcases hc with ⟨hf, -⟩ | ⟨-, -, place, chain, above, name, ho, -⟩
  · obtain ⟨place, content, hres, -⟩ := FileTree.isFile_iff.mp hf
    exact FileTree.resolve_join_ne_ok h ha hres
  · obtain ⟨start, hres, -⟩ := ho.begins
    exact FileTree.resolve_join_ne_ok h ha hres

lemma not_collects_of_skipped {tree : FileTree} {registry : Registry} {root start q : Text} {excluded : List Text}
    (hs : Skipped start) (hf : tree.isFile start = false) : ¬Collects tree registry root excluded start q := by
  rintro (⟨h, -⟩ | ⟨-, -, place, chain, above, name, ho, -⟩)
  · rw [hf] at h
    cases h
  · obtain ⟨-, -, -, he, -⟩ := ho.begins
    exact he hs

lemma collectsFrom_of_skipped {root : Text} (hs : Skipped root) (h : Fileless root) : CollectsFrom root [] [root] := by
  have hjoin : Skipped (join root root) := by
    obtain ⟨name, hm, hn⟩ := hs
    exact ⟨name, hm, Path.fileName?_join hn⟩
  intro tree registry excluded p
  rw [Scope.exists_mem_files_iff, if_pos rfl]
  simp only [List.mem_singleton, exists_eq_left]
  apply iff_of_false
  · rintro ⟨q, -, hc⟩
    exact not_collects_of_skipped hjoin (h.join root tree) hc
  · rintro ⟨q, -, hc⟩
    exact not_collects_of_skipped hs (h tree) hc

lemma collectsFrom_root_iff {root : Text} :
    CollectsFrom root [] [root] ↔ Settled root ∨ Skipped root ∧ Fileless root := by
  constructor
  · intro h
    by_cases hr : Settled root
    · exact .inl hr
    refine .inr ⟨not_not.mp fun hs => not_collectsFrom_of_not_skipped hr hs h, fun tree => ?_⟩
    rw [Bool.eq_false_iff]
    intro hf
    exact not_collectsFrom_of_isFile (Bool.eq_false_iff.mpr (not_or.mp hr).1) hf h
  · rintro (h | ⟨hs, h⟩)
    · exact collectsFrom_root h
    · exact collectsFrom_of_skipped hs h

/-- The files of a request are listed in order, each once, and are those that its paths stand for as they
are seen from the root. Without any path the root is seen from itself. That makes no difference for a settled
root, or for one that is never entered and never a file, as when it ends in a slash. -/
theorem files_exact (root : Text) (paths : List Text) :
    (∀ tree registry patterns, ((Scope.mk tree registry root patterns).files paths).Pairwise Path.Precedes) ∧
    CollectsFrom root paths (if paths = [] then [join root root] else paths.map (join root)) ∧
    (CollectsFrom root paths (if paths = [] then [root] else paths.map (join root)) ↔
      paths ≠ [] ∨ Settled root ∨ Skipped root ∧ Fileless root) ∧
    (∀ front last, root.splitOn '/' = front ++ [last] →
      (Path.isFiller last = true → Fileless root) ∧
      (IsName last → last ∉ front ∨ ['.', '.'] ∉ front → ¬Fileless root)) ∧
    ∀ tree registry patterns paths', (∀ p, p ∈ paths' ↔ p ∈ paths) →
      ((Scope.mk tree registry root patterns).files paths').map Path.components =
        ((Scope.mk tree registry root patterns).files paths).map Path.components := by
  have hseen : CollectsFrom root paths (if paths = [] then [join root root] else paths.map (join root)) :=
    fun tree registry excluded p => Scope.exists_mem_files_iff
  refine ⟨fun _ _ _ => Path.sorted_pairwise _, hseen, ?_, ?_, fun _ _ _ _ h => Scope.components_files_congr h⟩
  · by_cases he : paths = []
    · subst he
      rw [if_pos rfl, collectsFrom_root_iff]
      simp
    · rw [if_neg he] at hseen ⊢
      exact iff_of_true hseen (.inl he)
  · intro front last hs
    exact ⟨Fileless.of_filler hs, FileTree.not_fileless hs⟩

theorem collectsFrom_dot : CollectsFrom (Text.lit ".") [] [Text.lit "."] :=
  (files_exact (Text.lit ".") []).2.2.1.mpr (.inr (.inl (.inr (by decide))))

def scriptDirectory : FileTree where
  nodes := [([Text.lit "sub"], .directory), ([Text.lit "a.js", Text.lit "sub"], .file [])]

theorem relative_root_missed :
    (Scope.mk scriptDirectory .standard (Text.lit "sub") (Glob.patterns [])).files [] = [] ∧
      Collects scriptDirectory .standard (Text.lit "sub") [] (Text.lit "sub") (Text.lit "sub/a.js") := by
  have hkept (p : Text) : Kept (Text.lit "sub") [] p := by simp [Kept]
  have hnone : (Scope.mk scriptDirectory .standard (Text.lit "sub") (Glob.patterns [])).filesOf
      (Text.lit "sub") = [] := rfl
  refine ⟨?_, .inr ⟨by decide, ⟨Text.lit "js", by decide, by decide⟩, ?_⟩⟩
  · simp [Scope.files, Scope.inputs, hnone, Path.sorted, Path.distinct]
  refine ⟨[Text.lit "sub"], [], Text.lit "sub", Text.lit "a.js", .start rfl rfl ⟨?_, hkept _⟩, .file rfl, rfl,
    hkept _⟩
  rw [← isSkipped_iff]
  decide

end Marginalia.Extract
