import Marginalia.Toml.Value

/-!
Building TOML tables. A table is defined once, by its header or by dotted keys; the tables on the
way to a header are implied and may still be defined. Dotted keys extend only what dotted keys of
the same section have defined.
-/

namespace Marginalia.Toml

inductive Item where
  | value (v : Value)
  /-- A table, with the facts that no header has defined it yet and that dotted keys made it. -/
  | table (isImplied isDotted : Bool) (entries : List (Text × Item))
  | tables (elements : List (List (Text × Item)))

abbrev Entries := List (Text × Item)

namespace Entries

def replace (key : Text) (item : Item) (entries : Entries) : Entries :=
  entries.map fun e => if e.1 = key then (key, item) else e

def append (key : Text) (item : Item) (entries : Entries) : Entries := entries ++ [(key, item)]

/-- Changes the table at a path by `change`, which also learns whether dotted keys made it. Tables
that are missing on the way are implied. -/
def at? (dotted : Bool) (change : Bool → Entries → Option Entries) :
    List Text → Bool → Entries → Option Entries
  | [], isDotted, entries => change isDotted entries
  | key :: path, _, entries =>
    match entries.lookup key with
    | none => do
      some (entries.append key (.table true dotted (← at? dotted change path dotted [])))
    | some (.value _) => none
    | some (.tables elements) => do
      let last ← elements.getLast?
      let changed ← at? dotted change path false last
      some (entries.replace key (.tables (elements.dropLast ++ [changed])))
    | some (.table isImplied isDotted inner) =>
      if dotted && !isImplied then none
      else do
        let changed ← at? dotted change path isDotted inner
        some (entries.replace key (.table isImplied isDotted changed))

def addValue? (entries : Entries) (path : List Text) (key : Text) (value : Value) :
    Option Entries :=
  let add (isDotted : Bool) (es : Entries) : Option Entries :=
    if isDotted == path.isEmpty || (es.lookup key).isSome then none
    else some (es.append key (.value value))
  at? (!path.isEmpty) add path false entries

end Entries

structure Pair where
  path : List Text
  key : Text
  value : Value

def Entries.addPairs? (entries : Entries) (pairs : List Pair) : Option Entries :=
  pairs.foldlM (fun es p => Entries.addValue? es p.path p.key p.value) entries

structure Section where
  isRepeated : Bool
  path : List Text
  key : Text
  pairs : List Pair

namespace Entries

def defineTable? (key : Text) (pairs : List Pair) (entries : Entries) : Option Entries :=
  match entries.lookup key with
  | none => do some (entries.append key (.table false false (← addPairs? [] pairs)))
  | some (.table true false inner) => do
    some (entries.replace key (.table false false (← addPairs? inner pairs)))
  | some _ => none

def defineElement? (key : Text) (pairs : List Pair) (entries : Entries) : Option Entries :=
  match entries.lookup key with
  | none => do some (entries.append key (.tables [← addPairs? [] pairs]))
  | some (.tables elements) => do
    some (entries.replace key (.tables (elements ++ [← addPairs? [] pairs])))
  | some _ => none

def addSection? (entries : Entries) (s : Section) : Option Entries :=
  let define := if s.isRepeated then defineElement? else defineTable?
  at? false (fun _ es => define s.key s.pairs es) s.path false entries

end Entries

mutual

def Item.toValue : Item → Value
  | .value v => v
  | .table _ _ entries => .table (entryValues entries)
  | .tables elements => .array (elementValues elements)

def entryValues : List (Text × Item) → List (Text × Value)
  | [] => []
  | (key, item) :: entries => (key, item.toValue) :: entryValues entries

def elementValues : List (List (Text × Item)) → List Value
  | [] => []
  | entries :: elements => .table (entryValues entries) :: elementValues elements

end

def document? (pairs : List Pair) (sections : List Section) : Option Value := do
  let start ← Entries.addPairs? [] pairs
  let entries ← sections.foldlM Entries.addSection? start
  some (.table (entryValues entries))

end Marginalia.Toml
