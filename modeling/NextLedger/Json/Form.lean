import NextLedger.Account.Id
import NextLedger.Amount
import NextLedger.Hash256
import NextLedger.Json.Skip

/-!
# JSON forms

A **form** is a way to write the values of a type as JSON together with the way to read them.
Reading is more lenient than writing: the members of a record may come in any order and with others
among them, some may be missing, and a record may be given as the list of its members' values in
order. A member that is known may not come twice.
-/

namespace NextLedger

namespace Json

/-- A way to write values and to read them. -/
structure Form (α : Type) where
  write : α → Json
  read : Reader α

/-- The form of a type whose values stand for those of another. -/
def Form.via {α β : Type} (f : Form α) (make : α → β) (view : β → α) : Form β where
  write b := f.write (view b)
  read := Reader.map make f.read

/-! ### Lists -/

/-- What stands at the next place of a list or a record. -/
inductive Step
  /-- Its end, which `rest` follows. -/
  | done (rest : List Char)
  /-- One more entry, whose text starts with `rest`. -/
  | more (rest : List Char)

/-- The next place of a list. Before every item but the first there is a comma. -/
def nextItem (first : Bool) (s : List Char) : Except Problem Step :=
  match skipBlanks s with
  | [] => .error .truncated
  | ']' :: s => .ok (.done s)
  | c :: s =>
    if first then .ok (.more (c :: s))
    else if c = ',' then
      match skipBlanks s with
      | [] => .error .truncated
      | ']' :: _ => .error .malformed
      | s => .ok (.more s)
    else .error .malformed

/-- The end of a list whose items have all been read. -/
def closeList (s : List Char) : Except Problem (List Char) :=
  match skipBlanks s with
  | [] => .error .truncated
  | ']' :: s => .ok s
  | _ => .error .malformed

/-- The items of a list and its end, at most `fuel` items. -/
def items {α : Type} (r : Reader α) : (fuel : Nat) → (first : Bool) → Reader (List α)
  | 0, _, _ => .error .truncated
  | fuel + 1, first, s => do
    match ← nextItem first s with
    | .done s => .ok ([], s)
    | .more s =>
      let (a, s) ← r s
      let (as, s) ← items r fuel false s
      return (a :: as, s)

/-- Exactly `n` items, without the end of the list. -/
def itemsExactly {α : Type} (r : Reader α) : (n : Nat) → (first : Bool) → Reader (List α)
  | 0, _, s => .ok ([], s)
  | n + 1, first, s => do
    match ← nextItem first s with
    | .done _ => .error .mismatched
    | .more s =>
      let (a, s) ← r s
      let (as, s) ← itemsExactly r n false s
      return (a :: as, s)

/-- A list of any length. -/
def Form.list {α : Type} (f : Form α) : Form (List α) where
  write as := .list (as.map f.write)
  read s :=
    match skipBlanks s with
    | '[' :: s => items f.read (s.length + 1) true s
    | s => mismatch s

/-! ### Records -/

/-- A member of a record, read into a state of type `P` that collects the members so far. -/
structure Field (P : Type) where
  name : String
  /-- Whether the member has come already. -/
  isSet : P → Bool
  read : P → Reader P

/-- The members of a record of type `α`. -/
structure Fields (P α : Type) where
  fields : List (Field P)
  /-- The state before any member has come. -/
  start : P
  /-- The record, unless a member without a default is missing. -/
  finish : P → Option α
  write : α → List (String × Json)

namespace Fields

variable {P Q α β : Type}

/-- One member with a default if it may be missing, written as `write` says or left out. -/
def one (name : String) (f : Form α) (default : Option α) (write : α → Option Json) :
    Fields (Option α) α where
  fields := [⟨name, Option.isSome, fun _ => Reader.map some f.read⟩]
  start := none
  finish p := p.or default
  write a := ((write a).map fun j => (name, j)).toList

/-- A member that must come. -/
def required (name : String) (f : Form α) : Fields (Option α) α :=
  one name f none fun a => some (f.write a)

/-- A member that may be missing. -/
def defaulted (name : String) (f : Form α) (default : α) : Fields (Option α) α :=
  one name f (some default) fun a => some (f.write a)

/-- The members of one record followed by those of another. -/
def and (f : Fields P α) (g : Fields Q β) : Fields (P × Q) (α × β) where
  fields :=
    (f.fields.map fun field => ⟨field.name, fun p => field.isSet p.1,
      fun p => Reader.map (fun q => (q, p.2)) (field.read p.1)⟩) ++
    (g.fields.map fun field => ⟨field.name, fun p => field.isSet p.2,
      fun p => Reader.map (fun q => (p.1, q)) (field.read p.2)⟩)
  start := (f.start, g.start)
  finish p := do
    let a ← f.finish p.1
    let b ← g.finish p.2
    return (a, b)
  write ab := f.write ab.1 ++ g.write ab.2

end Fields

/-- The next place of a record; the text of an entry starts after the opening quote of its name. -/
def nextMember (first : Bool) (s : List Char) : Except Problem Step :=
  match skipBlanks s with
  | [] => .error .truncated
  | '}' :: s => .ok (.done s)
  | c :: s =>
    if first then
      if c = '"' then .ok (.more s) else .error .malformed
    else if c = ',' then
      match skipBlanks s with
      | [] => .error .truncated
      | '"' :: s => .ok (.more s)
      | _ => .error .malformed
    else .error .malformed

/-- The colon after a name. -/
def colon (s : List Char) : Except Problem (List Char) :=
  match skipBlanks s with
  | [] => .error .truncated
  | ':' :: s => .ok s
  | _ => .error .malformed

/-- The end of a record whose members have all been read. -/
def closeRecord (s : List Char) : Except Problem (List Char) :=
  match skipBlanks s with
  | [] => .error .truncated
  | '}' :: s => .ok s
  | _ => .error .malformed

/-- The members of a record by name and its end, at most `fuel` members. -/
def members {P : Type} (fields : List (Field P)) :
    (fuel : Nat) → (first : Bool) → P → Reader P
  | 0, _, _, _ => .error .truncated
  | fuel + 1, first, p, s => do
    match ← nextMember first s with
    | .done s => .ok (p, s)
    | .more s =>
      let (name, s) ← textTail s
      match fields.find? fun field => field.name == name with
      | some field =>
        if field.isSet p then .error .mismatched
        else
          let s ← colon s
          let (p, s) ← field.read p s
          members fields fuel false p s
      | none =>
        let s ← colon s
        let s ← skipValue s
        members fields fuel false p s

/-- The members of a record by place and the end of the list. The last ones may be missing. -/
def positional {P : Type} : List (Field P) → (first : Bool) → P → Reader P
  | [], _, p, s => do
    let s ← closeList s
    return (p, s)
  | field :: fields, first, p, s => do
    match ← nextItem first s with
    | .done s => .ok (p, s)
    | .more s =>
      let (p, s) ← field.read p s
      positional fields false p s

/-- A record. -/
def Form.record {P α : Type} (f : Fields P α) : Form α where
  write a := .record (f.write a)
  read s := do
    let (p, s) ←
      match skipBlanks s with
      | '[' :: s => positional f.fields true f.start s
      | '{' :: s => members f.fields (s.length + 1) true f.start s
      | s => mismatch s
    match f.finish p with
    | none => .error .mismatched
    | some a => .ok (a, s)

/-! ### Options and choices -/

/-- A value that may be absent. -/
def Form.option {α : Type} (f : Form α) : Form (Option α) where
  write
    | none => .null
    | some a => f.write a
  read s :=
    match skipBlanks s with
    | 'n' :: s => do
      let (_, s) ← word ['u', 'l', 'l'] s
      return (none, s)
    | s => Reader.map some f.read s

/-- A member that is written only if it is present. -/
def Fields.omitted {α : Type} (name : String) (f : Form α) :
    Fields (Option (Option α)) (Option α) :=
  one name (Form.option f) (some none) fun o => o.map f.write

/-- The name of the first member of a record, which must have one. -/
def firstName : Reader String := fun s =>
  match skipBlanks s with
  | [] => .error .truncated
  | '"' :: s => textTail s
  | _ => .error .malformed

/-- The name of an alternative and the colon after it. -/
def alternative {α : Type} (find : String → Option α) : Reader α := fun s => do
  let (name, s) ← firstName s
  match find name with
  | none => .error .mismatched
  | some a =>
    let s ← colon s
    return (a, s)

/-- One of a few values, each with a name. It may also be given as a record with that name as its
only member and nothing as its value. -/
def Form.oneOf {α : Type} (name : α → String) (find : String → Option α) : Form α where
  write a := .text (name a)
  read s :=
    match skipBlanks s with
    | [] => .error .truncated
    | '"' :: s => do
      let (name, s) ← textTail s
      match find name with
      | none => .error .mismatched
      | some a => .ok (a, s)
    | '{' :: s => do
      let (a, s) ← alternative find s
      let (_, s) ← Reader.nothing s
      let s ← closeRecord s
      return (a, s)
    | _ => .error .malformed

/-- A record with one member, whose name says how its value is read. A bare name is of the wrong
shape. -/
def choice {α : Type} (find : String → Option (Reader α)) : Reader α := fun s =>
  match skipBlanks s with
  | [] => .error .truncated
  | '"' :: s => do
    let _ ← textTail s
    .error .mismatched
  | '{' :: s => do
    let (r, s) ← alternative find s
    let (a, s) ← r s
    let s ← closeRecord s
    return (a, s)
  | _ => .error .malformed

/-! ### Integers, texts and octets -/

namespace Form

/-- Integers from `least` to `greatest`. -/
def integer {α : Type} (least greatest : Int) (make : Int → α) (view : α → Int) : Form α where
  write a := .int (view a)
  read s := do
    let (n, s) ← Reader.int s
    if least ≤ n ∧ n ≤ greatest then .ok (make n, s) else .error .mismatched

/-- An unsigned number of 8 bits. -/
def u8 : Form UInt8 := integer 0 0xFF (fun n => UInt8.ofNat n.toNat) fun x => x.toNat

/-- An unsigned number of 32 bits. -/
def u32 : Form UInt32 := integer 0 0xFFFFFFFF (fun n => UInt32.ofNat n.toNat) fun x => x.toNat

/-- An unsigned number of 64 bits. -/
def u64 : Form UInt64 :=
  integer 0 0xFFFFFFFFFFFFFFFF (fun n => UInt64.ofNat n.toNat) fun x => x.toNat

/-- A signed number of 64 bits. -/
def i64 : Form Int64 := integer Amount.least Amount.greatest Int64.ofInt Int64.toInt

/-- A text. -/
def string : Form String := ⟨.text, Reader.text⟩

/-- Values that are written as texts. -/
def parsed {α : Type} (view : α → String) (parse : String → Option α) : Form α where
  write a := .text (view a)
  read s := do
    let (t, s) ← Reader.text s
    match parse t with
    | none => .error .mismatched
    | some a => .ok (a, s)

/-- A known number of octets, as a list of numbers. -/
def octets (n : Nat) : Form (ByteVec n) where
  write v := .list (v.toBytes.map u8.write)
  read s :=
    match skipBlanks s with
    | '[' :: s => do
      let (bs, s) ← itemsExactly u8.read n true s
      match ByteVec.ofBytes? n bs with
      | none => .error .mismatched
      | some v =>
        let s ← closeList s
        return (v, s)
    | s => mismatch s

/-- A known number of octets, as a hexadecimal text. -/
def hex (n : Nat) : Form (ByteVec n) := parsed ByteVec.toHex fun t => (ByteVec.ofHex n t).toOption

/-- A hash, as a hexadecimal text. -/
def hash : Form Hash256 := (hex 32).via Hash256.mk Hash256.bytes

/-- An account identifier, as a hexadecimal text. -/
def account : Form AccountId := (hex 32).via (fun v => ⟨⟨v⟩⟩) fun a => a.key.bytes

/-- A signature, as a hexadecimal text. -/
def signature : Form Signature := (hex 64).via Signature.mk Signature.bytes

/-- A key, as a list of numbers. -/
def key : Form PublicKey := (octets 32).via PublicKey.mk PublicKey.bytes

/-- A key hint, as a list of numbers. -/
def hint : Form Hint := (octets 4).via Hint.mk Hint.bytes

end Form

end Json

end NextLedger
