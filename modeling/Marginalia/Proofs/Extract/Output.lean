import Marginalia.Extract.Run
import Marginalia.Lists
import Mathlib.Tactic.Lemma

/-! Where the report of a run goes: to the standard output, or to one file. Nothing else changes. -/

namespace Marginalia

namespace Text

lemma terminated_concat {c : Char} (h : c ≠ '\n') (t : Text) : terminated (t ++ [c]) = t ++ [c, '\n'] := by
  rw [terminated, List.getLast?_concat, if_neg (by simpa using h), List.append_assoc]
  rfl

end Text

namespace FileTree

variable {tree : FileTree} {place p : Place} {node : Node}

lemma node?_put_self (h : place ≠ []) : (tree.put place node).node? place = some node := by
  simp [node?, put, h]

lemma node?_put_of_ne (h : p ≠ place) : (tree.put place node).node? p = tree.node? p := by
  have hb : (p == place) = false := beq_eq_false_iff_ne.mpr h
  simp only [node?, put, List.lookup_cons, hb, lookup_filter_ne h]

/-- The trees differ in one place at most, where the second has the given node. -/
structure ChangedAt (tree : FileTree) (place : Place) (node : Node) (after : FileTree) : Prop where
  current : after.current = tree.current
  changed : after.node? place = some node
  unchanged : ∀ p, p ≠ place → after.node? p = tree.node? p

lemma changedAt_put (h : ¬tree.isDirectoryAt place = true) : tree.ChangedAt place node (tree.put place node) where
  current := rfl
  changed := by
    refine node?_put_self ?_
    rintro rfl
    exact h rfl
  unchanged _ hp := node?_put_of_ne hp

end FileTree

namespace Extract

open Marginalia.Path (join)
open CommandLine (Request)

variable {tree : FileTree} {root : Text} {output : Option Text}

def Writable (tree : FileTree) (root : Text) (output : Option Text) : Prop :=
  ∀ path ∈ output, ∃ place, tree.resolve .creation (join root path) = .ok place ∧
    ¬tree.isDirectoryAt place = true

/-- A run that started in `tree` hands over a text, and changes nothing but the output file. -/
def HandsOver (tree : FileTree) (root : Text) (output : Option Text) (text : Text) (done : Run) : Prop :=
  match output with
  | none => done.stdout = text ∧ done.tree = tree
  | some path => done.stdout = [] ∧ ∃ place, tree.resolve .creation (join root path) = .ok place ∧
      tree.ChangedAt place (.file text.bytes) done.tree

section Finish

variable {request : Request} {log : List LogEntry} {report : Text} {after : Except Failure Unit}

lemma exists_emit_eq (hw : Writable tree root output) (report : Text) :
    ∃ stdout changed, emit tree root output report = .ok (stdout, changed) ∧
      HandsOver tree root output (Text.terminated report) ⟨after, stdout, log, changed⟩ := by
  cases output with
  | none => exact ⟨_, _, rfl, rfl, rfl⟩
  | some path =>
    obtain ⟨place, hplace, hdir⟩ := hw path rfl
    have hwrite : tree.write (join root path) (Text.terminated report).bytes =
        .ok (tree.put place (.file (Text.terminated report).bytes)) := by
      simp [FileTree.write, hplace, hdir, bind, Except.bind]
    refine ⟨[], tree.put place (.file (Text.terminated report).bytes), ?_, rfl, place, hplace,
      FileTree.changedAt_put hdir⟩
    rw [emit, hwrite]
    rfl

lemma finish_result (hw : Writable tree root request.output) :
    (finish tree root request log (.ok report) after).result = after := by
  obtain ⟨stdout, changed, he, -⟩ := @exists_emit_eq tree root _ log after hw report
  simp only [finish, Except.bind, he]

lemma finish_handsOver (hw : Writable tree root request.output) :
    HandsOver tree root request.output (Text.terminated report)
      (finish tree root request log (.ok report) after) := by
  obtain ⟨stdout, changed, he, hh⟩ := @exists_emit_eq tree root _ log after hw report
  simpa only [finish, Except.bind, he] using hh

end Finish

end Extract

end Marginalia
