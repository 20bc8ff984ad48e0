/-!
# TOML tables

A TOML document builds a table statement by statement. A **header** opens a table, a **list header**
opens the next table of a list of tables, and an **assignment** puts a value under a dotted key of
the table that was opened last. Tables that a header or a key passes on its way come into being by
themselves.

A table is defined once. How it came to be decides what may still add to it: a header may define
what longer headers have only passed, and a dotted key may add to what dotted keys have made.
-/

namespace NextLedger

namespace Toml

/-- How a table came to be. -/
inductive Origin
  /-- It has a header of its own. -/
  | header
  /-- It is on the way to the table of a longer header. -/
  | implied
  /-- It is on the way to the value of a dotted key. -/
  | dotted
deriving DecidableEq

/-- A value. Of fractions, truth values and times nothing is kept but their kind. -/
inductive Value
  | text (s : String)
  | integer (n : Int)
  | fraction
  | boolean
  | time
  | array (items : List Value)
  /-- A table in braces, to which nothing can add. -/
  | inline (members : List (String × Value))
  | table (origin : Origin) (members : List (String × Value))
  /-- A list of tables: those before the last, and the members of the last. -/
  | tables (earlier : List Value) (last : List (String × Value))

/-- The members of a table, in the order in which they came. -/
abbrev Members := List (String × Value)

/-- Puts a value under a name, in place of what was there. -/
def Members.put (name : String) (value : Value) : Members → Members
  | [] => [(name, value)]
  | (other, v) :: ms =>
    if other = name then (other, value) :: ms else (other, v) :: Members.put name value ms

theorem Members.lookup_cons (other : String) (m : String × Value) (ms : Members) :
    List.lookup other (m :: ms) = if other = m.1 then some m.2 else List.lookup other ms := by
  obtain ⟨name, v⟩ := m
  by_cases h : other = name
  · simp [h]
  · rw [List.lookup_cons, beq_eq_false_iff_ne.2 h, if_neg h]

/-- Putting changes what stands under one name. -/
theorem Members.lookup_put (name other : String) (value : Value) (ms : Members) :
    (ms.put name value).lookup other = if other = name then some value else ms.lookup other := by
  induction ms with
  | nil => rw [put, lookup_cons]
  | cons m ms ih =>
    rw [put]
    by_cases hm : m.1 = name
    · rw [if_pos hm, lookup_cons, lookup_cons, hm]
      split <;> rfl
    · rw [if_neg hm, lookup_cons, lookup_cons, ih]
      by_cases h : other = m.1
      · rw [if_pos h, if_pos h, if_neg (h ▸ hm)]
      · rw [if_neg h, if_neg h]

/-- Adds a value under a new name. -/
def Members.add? (name : String) (value : Value) (ms : Members) : Option Members :=
  match ms.lookup name with
  | none => some (ms ++ [(name, value)])
  | some _ => none

/-- A dotted key: the names on the way, and the last name. -/
structure Key where
  path : List String
  name : String
deriving DecidableEq

/-- A line of a document. -/
inductive Statement
  | header (key : Key)
  | listHeader (key : Key)
  | assign (key : Key) (value : Value)

/-! ### Assignments -/

/-- Assigns a value to a dotted key. The tables on the way must have been made by dotted keys, or be
passed by headers; the last of them must have been made by dotted keys. -/
def assignAt (value : Value) : (path : List String) → (name : String) → Members → Option Members
  | [], name, ms => ms.add? name value
  | p :: path, name, ms =>
    match ms.lookup p with
    | none => do
      let inner ← assignAt value path name []
      ms.put p (.table .dotted inner)
    | some (.table origin inner) =>
      if origin = .header ∨ (path = [] ∧ origin = .implied) then none
      else do
        let inner ← assignAt value path name inner
        ms.put p (.table origin inner)
    | some (.tables earlier last) =>
      if path = [] then none
      else do
        let last ← assignAt value path name last
        ms.put p (.tables earlier last)
    | some _ => none

/-- Assigns a value to a dotted key. -/
def assign (key : Key) (value : Value) (ms : Members) : Option Members :=
  assignAt value key.path key.name ms

/-- The inline table of some assignments. -/
def inlineTable (pairs : List (Key × Value)) : Option Value :=
  (pairs.foldlM (fun ms p => assign p.1 p.2 ms) []).map .inline

/-! ### Headers -/

/-- Changes the table at the end of a path of headers. Of a list of tables the last is meant. -/
def changeAt (f : Members → Option Members) : List String → Members → Option Members
  | [], ms => f ms
  | p :: path, ms =>
    match ms.lookup p with
    | none => do
      let inner ← changeAt f path []
      ms.put p (.table .implied inner)
    | some (.table origin inner) => do
      let inner ← changeAt f path inner
      ms.put p (.table origin inner)
    | some (.tables earlier last) => do
      let last ← changeAt f path last
      ms.put p (.tables earlier last)
    | some _ => none

/-- Defines the table with the given name. -/
def openTable (name : String) (ms : Members) : Option Members :=
  match ms.lookup name with
  | none => some (ms.put name (.table .header []))
  | some (.table .implied inner) => some (ms.put name (.table .header inner))
  | some _ => none

/-- Adds a table to the list with the given name. -/
def openListed (name : String) (ms : Members) : Option Members :=
  match ms.lookup name with
  | none => some (ms.put name (.tables [] []))
  | some (.tables earlier last) =>
    some (ms.put name (.tables (earlier ++ [.table .header last]) []))
  | some _ => none

/-! ### Documents -/

/-- What the statements so far have built. -/
structure Document where
  root : Members
  /-- The way to the table that was opened last. -/
  current : List String

namespace Document

/-- The document without statements. -/
def empty : Document := ⟨[], []⟩

/-- The document after one more statement, unless the statement defines something again. -/
def apply (d : Document) : Statement → Option Document
  | .header key => do
    let root ← changeAt (openTable key.name) key.path d.root
    return ⟨root, key.path ++ [key.name]⟩
  | .listHeader key => do
    let root ← changeAt (openListed key.name) key.path d.root
    return ⟨root, key.path ++ [key.name]⟩
  | .assign key value => do
    let root ← changeAt (assign key value) d.current d.root
    return { d with root := root }

end Document

/-- The table that some statements build. -/
def ofStatements (statements : List Statement) : Option Members :=
  (statements.foldlM Document.apply .empty).map Document.root

end Toml

end NextLedger
