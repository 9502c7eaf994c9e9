import Marginalia.Glob.Basic

/-!
Reading glob patterns. A double star is special where it stands for a whole component of a path;
elsewhere it is two stars.
-/

namespace Marginalia.Glob

inductive Problem where
  | unclosedClass
  | invalidRange (first last : Char)
  | unclosedGroup
  | unopenedGroup
  | danglingEscape
  deriving DecidableEq, Repr

def Problem.reason : Problem → Text
  | unclosedClass => Text.lit "unclosed character class; missing ']'"
  | invalidRange first last =>
    Text.lit "invalid range; '" ++ first :: Text.lit "' > '" ++ [last, '\'']
  | unclosedGroup =>
    Text.lit "unclosed alternate group; missing '\x7d' (maybe escape '\x7b' with '[\x7b]'?)"
  | unopenedGroup =>
    Text.lit "unopened alternate group; missing '\x7b' (maybe escape '\x7d' with '[\x7d]'?)"
  | danglingEscape => Text.lit "dangling '\\'"

def Problem.message (problem : Problem) (text : Text) : Text :=
  Text.lit "error parsing glob '" ++ text ++ Text.lit "': " ++ problem.reason

structure OpenClass where
  negated : Bool := false
  untouched : Bool := true
  inRange : Bool := false
  ranges : List (Char × Char) := []

namespace OpenClass

def add (k : OpenClass) (c : Char) : OpenClass :=
  { k with untouched := false, inRange := false, ranges := (c, c) :: k.ranges }

def extend (k : OpenClass) (c : Char) : Except Problem OpenClass :=
  match k.ranges with
  | [] => .ok (k.add c)
  | (first, _) :: ranges =>
    if c < first then .error (.invalidRange first c)
    else .ok { k with inRange := false, ranges := (first, c) :: ranges }

def addOrExtend (k : OpenClass) (c : Char) : Except Problem OpenClass :=
  if k.inRange then k.extend c else .ok (k.add c)

def isFirst (k : OpenClass) : Bool := k.ranges.isEmpty

def close (k : OpenClass) : Item :=
  .oneOf k.negated (if k.inRange then ('-', '-') :: k.ranges else k.ranges).reverse

end OpenClass

/-- A group of alternatives that is being read: the branches read so far and the items before the
group, both in reverse order. -/
structure OpenGroup where
  branches : List Pattern
  before : List Item

/-- The state of reading: the items of the current branch in reverse order, the open groups with
the innermost first, the last character, and the class that is being read. -/
structure Reading where
  items : List Item := []
  groups : List OpenGroup := []
  last : Option Char := none
  openClass : Option OpenClass := none

namespace Reading

def push (r : Reading) (i : Item) : Reading := { r with items := i :: r.items }

def twoStars (r : Reading) : Reading := (r.push .star).push .star

def replaceLast (r : Reading) (i : Item) : Reading :=
  match r.items with
  | .leadingDirectories :: _ => r
  | .contents :: _ => r
  | _ :: items => { r with items := i :: items }
  | [] => r.push i

/-- How a double star reads, given the character that follows it, and whether it takes this
character along. -/
def doubleStar (r : Reading) (next : Option Char) : Reading × Bool :=
  if r.items.isEmpty then
    if next = none || next = some '/' then (r.push .leadingDirectories, true)
    else (r.twoStars, false)
  else if r.last = some '/' ||
      (!r.groups.isEmpty && (r.last = some ',' || r.last = some '\x7b')) then
    if next = none then (r.replaceLast .contents, false)
    else if next = some '/' then (r.replaceLast .innerDirectories, true)
    else if !r.groups.isEmpty && (next = some ',' || next = some '\x7d') then
      (r.replaceLast .contents, false)
    else (r.twoStars, false)
  else (r.twoStars, false)

def openGroup (r : Reading) : Reading :=
  { r with items := [], groups := ⟨[], r.items⟩ :: r.groups }

def comma (r : Reading) : Reading :=
  match r.groups with
  | [] => r.push (.literal ',')
  | g :: groups =>
    { r with items := [], groups := { g with branches := r.items.reverse :: g.branches } :: groups }

def closeGroup (r : Reading) : Except Problem Reading :=
  match r.groups with
  | [] => .error .unopenedGroup
  | g :: groups =>
    let branches := (r.items.reverse :: g.branches).reverse
    .ok { r with items := .alternatives branches :: g.before, groups }

def inClass (r : Reading) (k : OpenClass) (c : Char) : Except Problem Reading := do
  let continued (k : OpenClass) : Reading := { r with openClass := some k, last := some c }
  if k.untouched && (c = '!' || c = '^') then
    .ok (continued { k with negated := true, untouched := false })
  else if c = ']' && !k.isFirst then
    .ok { r with items := k.close :: r.items, openClass := none, last := some c }
  else if c = '-' && !k.isFirst && !k.inRange then
    .ok (continued { k with inRange := true })
  else .ok (continued (← k.addOrExtend c))

end Reading

def readFrom (r : Reading) : Text → Except Problem Pattern
  | [] =>
    if r.openClass.isSome then .error .unclosedClass
    else if !r.groups.isEmpty then .error .unclosedGroup
    else .ok r.items.reverse
  | c :: rest =>
    match r.openClass with
    | some k => do readFrom (← r.inClass k c) rest
    | none =>
      match c, rest with
      | '\\', [] => .error .danglingEscape
      | '\\', d :: rest => readFrom { r.push (.literal d) with last := some d } rest
      | '*', '*' :: rest =>
        match rest with
        | [] => readFrom (r.doubleStar none).1 []
        | d :: rest =>
          let (s, taken) := r.doubleStar (some d)
          if taken then readFrom { s with last := some d } rest
          else readFrom { s with last := some '*' } (d :: rest)
      | '*', rest => readFrom { r.push .star with last := some c } rest
      | '?', rest => readFrom { r.push .anyByte with last := some c } rest
      | '[', rest => readFrom { r with openClass := some {}, last := some c } rest
      | '\x7b', rest => readFrom { r.openGroup with last := some c } rest
      | '\x7d', rest => do readFrom { (← r.closeGroup) with last := some c } rest
      | ',', rest => readFrom { r.comma with last := some c } rest
      | c, rest => readFrom { r.push (.literal c) with last := some c } rest

def parse (text : Text) : Except Problem Pattern := readFrom {} text

end Marginalia.Glob
