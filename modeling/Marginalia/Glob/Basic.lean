import Marginalia.Text.Utf8

/-!
Glob patterns and what they match. A pattern is matched against the bytes of a whole path. An item
takes the bytes that may remain of the path to those that may remain after it; the pattern matches
if nothing may remain after all of its items.
-/

namespace Marginalia.Glob

inductive Item where
  | literal (c : Char)
  | anyByte
  /-- Any bytes, slashes included. -/
  | star
  /-- Any directories at the start of a path, none or a lone slash included. -/
  | leadingDirectories
  | innerDirectories
  | contents
  | oneOf (negated : Bool) (ranges : List (Char × Char))
  | alternatives (branches : List (List Item))

abbrev Pattern := List Item

abbrev Rest := List UInt8

namespace Rest

def afterBytes? (bs : List UInt8) (p : Rest) : Option Rest := bs.isPrefixOf? p

def afterByte? (test : UInt8 → Bool) : Rest → Option Rest
  | [] => none
  | b :: p => if test b then some p else none

def onward : Rest → List Rest
  | [] => [[]]
  | b :: p => (b :: p) :: onward p

def slash : UInt8 := 47

def afterSlashes : Rest → List Rest
  | [] => []
  | b :: p => if b = slash then p :: afterSlashes p else afterSlashes p

end Rest

/-- A range of characters covers bytes: it runs from the last byte of its first character to the
first byte of its last character, and the other bytes of both stand for themselves. -/
def coversByte (range : Char × Char) (b : UInt8) : Bool :=
  let first := Text.bytes [range.1]
  let last := Text.bytes [range.2]
  if range.1 = range.2 then first.contains b
  else
    first.dropLast.contains b || last.tail.contains b ||
      (first.getLast?.any (· ≤ b) && last.head?.any (b ≤ ·))

mutual

def Item.isVoid : Item → Bool
  | .alternatives branches => areVoidBranches branches
  | _ => false

def isVoid : Pattern → Bool
  | [] => true
  | i :: is => i.isVoid && isVoid is

def areVoidBranches : List Pattern → Bool
  | [] => true
  | b :: bs => isVoid b && areVoidBranches bs

end

mutual

/-- What may remain after an item. Void branches do not count as alternatives. -/
def Item.advance : Item → List Rest → List Rest
  | .literal c, rests => rests.filterMap (Rest.afterBytes? (Text.bytes [c]))
  | .anyByte, rests => rests.filterMap (Rest.afterByte? fun _ => true)
  | .star, rests => rests.flatMap Rest.onward
  | .leadingDirectories, rests => rests.flatMap fun p => p :: p.afterSlashes
  | .innerDirectories, rests =>
    (rests.filterMap (Rest.afterByte? (· = Rest.slash))).flatMap fun p => p :: p.afterSlashes
  | .contents, rests =>
    (rests.filterMap (Rest.afterByte? (· = Rest.slash))).flatMap Rest.onward
  | .oneOf negated ranges, rests =>
    rests.filterMap (Rest.afterByte? fun b => (ranges.any fun r => coversByte r b) != negated)
  | .alternatives branches, rests =>
    if areVoidBranches branches then rests else advanceAny branches rests

def advance : Pattern → List Rest → List Rest
  | [], rests => rests
  | i :: is, rests => advance is (i.advance rests).eraseDups

def advanceAny : List Pattern → List Rest → List Rest
  | [], _ => []
  | b :: bs, rests =>
    if isVoid b then advanceAny bs rests else advance b rests ++ advanceAny bs rests

end

/-- The pattern matches the path. Leading directories alone match every path. -/
def isMatch (pattern : Pattern) (path : Text) : Bool :=
  match pattern with
  | [.leadingDirectories] => true
  | _ => (advance pattern [Text.bytes path]).contains []

end Marginalia.Glob
