import NextLedger.Toml.Quoted
import NextLedger.Toml.Scalar

/-!
# Reading TOML

A document is read line by line into statements; the table that they build is the value of the
document. Values nest less than `nestingLimit` deep, and keys have fewer names than that.
-/

namespace NextLedger

namespace Toml

/-- The depth that values, and the length that keys, stay below. -/
def nestingLimit : Nat := 80

/-! ### Keys -/

/-- Whether a character may stand in a name without quotes. -/
def isBare (c : Char) : Bool := c.isAlphanum || c == '-' || c == '_'

/-- One name of a key. -/
def keyName : Reader String := fun s =>
  match lineText s with
  | some (cs, rest) => some (String.ofList cs, rest)
  | none =>
    let name := s.takeWhile isBare
    if name.isEmpty then none else some (String.ofList name, s.dropWhile isBare)

/-- The names of a key, at most `fuel` of them, with blanks around each. -/
def keyNames : (fuel : Nat) → Reader Key
  | 0, _ => none
  | fuel + 1, s => do
    let (name, s) ← keyName (skipBlanks s)
    match skipBlanks s with
    | '.' :: s =>
      let (key, s) ← keyNames fuel s
      return (⟨name :: key.path, key.name⟩, s)
    | s => return (⟨[], name⟩, s)

/-- A key. -/
def key : Reader Key := keyNames (nestingLimit - 1)

/-! ### Values -/

/-- A key, the sign between, and a value that `r` reads. -/
def assignment (r : Reader Value) : Reader (Key × Value) := fun s => do
  let (k, s) ← key s
  let (_, s) ← mark '=' s
  let (v, s) ← r (skipBlanks s)
  return ((k, v), s)

/-- The items of an array and its end, at most `fuel` items. The last may have a comma after it. -/
def arrayItems (r : Reader Value) : (fuel : Nat) → Reader (List Value)
  | 0, _ => none
  | fuel + 1, s =>
    match skipSpace false s with
    | ']' :: s => some ([], s)
    | s => do
      let (v, s) ← r s
      match skipSpace false s with
      | ',' :: s =>
        let (vs, s) ← arrayItems r fuel s
        return (v :: vs, s)
      | ']' :: s => return ([v], s)
      | _ => none

/-- The assignments of an inline table and its end, at most `fuel` of them. The last has no comma
after it. -/
def inlinePairs (r : Reader Value) : (fuel : Nat) → Reader (List (Key × Value))
  | 0, _ => none
  | fuel + 1, s => do
    let (p, s) ← assignment r s
    match skipBlanks s with
    | ',' :: s =>
      let (ps, s) ← inlinePairs r fuel s
      return (p :: ps, s)
    | '}' :: s => return ([p], s)
    | _ => none

/-- An inline table after its opening brace. -/
def inlineTail (r : Reader Value) : Reader Value := fun s =>
  match skipBlanks s with
  | '}' :: s => some (.inline [], s)
  | s => do
    let (ps, s) ← inlinePairs r (s.length + 1) s
    let table ← inlineTable ps
    return (table, s)

/-- A text or a scalar. -/
def simpleValue : Reader Value := fun s =>
  match anyText s with
  | some (cs, s) => some (.text (String.ofList cs), s)
  | none => scalar s

/-- A value that nests at most `depth` deep. -/
def value : (depth : Nat) → Reader Value
  | 0, s => simpleValue s
  | depth + 1, '[' :: s => do
    let (vs, s) ← arrayItems (value depth) (s.length + 1) s
    return (.array vs, s)
  | depth + 1, '{' :: s => inlineTail (value depth) s
  | _ + 1, s => simpleValue s

/-! ### Documents -/

/-- The statement on a line, if there is one. -/
def statement : Reader (Option Statement)
  | '[' :: '[' :: s => do
    let (k, s) ← key s
    let (_, s) ← mark ']' s
    let (_, s) ← mark ']' s
    return (some (.listHeader k), s)
  | '[' :: s => do
    let (k, s) ← key s
    let (_, s) ← mark ']' s
    return (some (.header k), s)
  | [] => some (none, [])
  | c :: s =>
    if c = '#' ∨ c = '\n' ∨ c = '\r' then some (none, c :: s)
    else do
      let ((k, v), s) ← assignment (value (nestingLimit - 1)) (c :: s)
      return (some (.assign k v), s)

/-- The statements of a document, on at most `fuel` lines. -/
def lines : (fuel : Nat) → List Char → Option (List Statement)
  | _, [] => some []
  | 0, _ :: _ => none
  | fuel + 1, c :: s => do
    let (first, s) ← statement (skipBlanks (c :: s))
    let s ← lineEnd s
    let rest ← lines fuel s
    return first.toList ++ rest

/-- The text without the mark that some editors put in front. -/
def skipByteOrderMark : List Char → List Char
  | [] => []
  | c :: s => if c.toNat = 0xFEFF then s else c :: s

/-- The table that a document writes. -/
def ofText (s : String) : Option Members := do
  let cs := skipByteOrderMark s.toList
  let statements ← lines cs.length cs
  ofStatements statements

end Toml

end NextLedger
