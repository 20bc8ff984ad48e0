import NextLedger.Hash256
import NextLedger.Account.Id
import NextLedger.Amount

/-!
# The wire format

What peers exchange and what is hashed is written field after field, with no names and no padding.
Integers have a fixed width and are little-endian; a list, a text and a signature are preceded by
their length in eight octets; an option by one octet; a choice by its number in four octets.
Identifiers have a known length and stand bare.

A **form** is a way to write the values of a type together with the way to read them. Every form is
self-delimiting: reading takes exactly the octets that writing would have given and leaves the rest.
-/

namespace NextLedger

namespace Wire

/-- Why octets cannot be read. -/
inductive Fault
  /-- The octets end inside an item of a fixed width. -/
  | endOfInput
  /-- The octets end inside the contents of a text or a signature. -/
  | endOfContents
  /-- An option is preceded by neither zero nor one. -/
  | optionTag (tag : UInt8)
  /-- A choice of `count` has no alternative of this number. -/
  | choice (index : UInt32) (count : Nat)
  | text (fault : Utf8.Fault)
  /-- A signature does not have 64 octets. -/
  | signatureLength (length : Nat)
deriving DecidableEq

/-- The fault as a sentence. -/
def Fault.message : Fault → String
  | .endOfInput => "io error: unexpected end of file"
  | .endOfContents => "io error: "
  | .optionTag tag => s!"tag for enum is not valid, found {tag.toNat}"
  | .choice index count =>
    s!"invalid value: integer `{index.toNat}`, expected variant index 0 <= i < {count}"
  | .text fault => s!"string is not valid utf8: {fault.message}"
  | .signatureLength length => s!"invalid length {length}, expected 64 bytes"

/-- Reads a value off the front of octets. -/
abbrev Decoder (α : Type) := Bytes → Except Fault (α × Bytes)

/-- A way to write values and to read them. -/
structure Form (α : Type) where
  encode : α → Bytes
  decode : Decoder α
  /-- Whether all the lengths within a value can be written in eight octets. -/
  Fits : α → Prop

/-- The first `n` octets and the rest, if there are so many. -/
def split? : (n : Nat) → Bytes → Option (Bytes × Bytes)
  | 0, bs => some ([], bs)
  | _ + 1, [] => none
  | n + 1, b :: bs => (split? n bs).map fun (first, rest) => (b :: first, rest)

theorem split?_eq_some_iff {n : Nat} {bs first rest : Bytes} :
    split? n bs = some (first, rest) ↔ bs = first ++ rest ∧ first.length = n := by
  induction n generalizing bs first with
  | zero =>
    simp only [split?, Option.some.injEq, Prod.mk.injEq, List.length_eq_zero_iff]
    constructor
    · rintro ⟨rfl, rfl⟩
      simp
    · rintro ⟨rfl, rfl⟩
      simp
  | succ n ih =>
    cases bs with
    | nil =>
      simp only [split?, reduceCtorEq, false_iff, not_and]
      intro h
      rw [(List.append_eq_nil_iff.1 h.symm).1]
      simp
    | cons b bs =>
      simp only [split?, Option.map_eq_some_iff, Prod.mk.injEq, Prod.exists]
      constructor
      · rintro ⟨x, y, h, rfl, rfl⟩
        obtain ⟨rfl, rfl⟩ := ih.1 h
        simp
      · rintro ⟨h, hlen⟩
        cases first with
        | nil => simp at hlen
        | cons c first =>
          simp only [List.cons_append, List.cons.injEq, List.length_cons,
            Nat.add_right_cancel_iff] at h hlen
          exact ⟨first, rest, ih.2 ⟨h.2, hlen⟩, by rw [h.1], rfl⟩

/-- Reads `n` octets of an item of a fixed width. -/
def fixed (n : Nat) : Decoder Bytes := fun bs =>
  match split? n bs with
  | none => .error .endOfInput
  | some r => .ok r

/-- Reads `n` octets of contents. -/
def contents (n : Nat) : Decoder Bytes := fun bs =>
  match split? n bs with
  | none => .error .endOfContents
  | some r => .ok r

namespace Form

variable {α β : Type}

/-- The form of a type whose values stand for those of another. -/
def via (f : Form α) (make : α → β) (view : β → α) : Form β where
  encode b := f.encode (view b)
  decode bs := (f.decode bs).map fun (a, rest) => (make a, rest)
  Fits b := f.Fits (view b)

/-- Two values, one after the other. -/
def and (f : Form α) (g : Form β) : Form (α × β) where
  encode p := f.encode p.1 ++ g.encode p.2
  decode bs := do
    let (a, bs) ← f.decode bs
    let (b, bs) ← g.decode bs
    return ((a, b), bs)
  Fits p := f.Fits p.1 ∧ g.Fits p.2

/-- Reads `n` values one after the other. -/
def decodeMany (f : Form α) : (n : Nat) → Decoder (List α)
  | 0, bs => .ok ([], bs)
  | n + 1, bs => do
    let (a, bs) ← f.decode bs
    let (as, bs) ← decodeMany f n bs
    return (a :: as, bs)

end Form

/-! ### Integers -/

/-- One octet. -/
def u8 : Form UInt8 where
  encode x := [x]
  decode
    | [] => .error .endOfInput
    | x :: bs => .ok (x, bs)
  Fits _ := True

/-- An unsigned number of 32 bits. -/
def u32 : Form UInt32 where
  encode x := Bytes.ofNatLE 4 x.toNat
  decode bs := (fixed 4 bs).map fun (n, rest) => (UInt32.ofNat (Bytes.toNatLE n), rest)
  Fits _ := True

/-- An unsigned number of 64 bits. -/
def u64 : Form UInt64 where
  encode x := Bytes.ofNatLE 8 x.toNat
  decode bs := (fixed 8 bs).map fun (n, rest) => (UInt64.ofNat (Bytes.toNatLE n), rest)
  Fits _ := True

/-- A signed number of 64 bits, in two's complement. -/
def i64 : Form Int64 := u64.via UInt64.toInt64 Int64.toUInt64

/-! ### Octets and text -/

/-- Octets of a known number, bare. -/
def octets (n : Nat) : Form (ByteVec n) where
  encode v := v.toBytes
  decode bs :=
    match h : split? n bs with
    | none => .error .endOfInput
    | some (first, rest) => .ok (⟨first, (split?_eq_some_iff.1 h).2⟩, rest)
  Fits _ := True

/-- A hash, bare. -/
def hash : Form Hash256 := (octets 32).via Hash256.mk Hash256.bytes

/-- A key, bare. -/
def key : Form PublicKey := (octets 32).via PublicKey.mk PublicKey.bytes

/-- An account identifier, bare. -/
def account : Form AccountId := key.via AccountId.mk AccountId.key

/-- A key hint, bare. -/
def hint : Form Hint := (octets 4).via Hint.mk Hint.bytes

/-- A number of octets or elements, in eight octets. -/
def writeLength (n : Nat) : Bytes := u64.encode (UInt64.ofNat n)

/-- Reads a number of octets or elements. -/
def readLength : Decoder Nat := fun bs => (u64.decode bs).map fun (n, rest) => (n.toNat, rest)

/-- A text: its length in UTF-8, then its octets. -/
def text : Form String where
  encode s :=
    let bs := Utf8.encode s.toList
    writeLength bs.length ++ bs
  decode bs := do
    let (n, bs) ← readLength bs
    let (body, bs) ← contents n bs
    match Utf8.decode body with
    | .error fault => .error (.text fault)
    | .ok cs => .ok (String.ofList cs, bs)
  Fits s := (Utf8.encode s.toList).length < UInt64.size

/-- A signature: its length, which is 64, then its octets. -/
def signature : Form Signature where
  encode s := writeLength s.bytes.toBytes.length ++ s.bytes.toBytes
  decode bs := do
    let (n, bs) ← readLength bs
    let (body, bs) ← contents n bs
    match ByteVec.ofBytes? 64 body with
    | none => .error (.signatureLength n)
    | some v => .ok (⟨v⟩, bs)
  Fits _ := True

/-! ### Options, lists and choices -/

/-- A value that may be absent: a zero, or a one and the value. -/
def option {α : Type} (f : Form α) : Form (Option α) where
  encode
    | none => [0]
    | some a => 1 :: f.encode a
  decode bs := do
    let (tag, bs) ← u8.decode bs
    if tag = 0 then
      return (none, bs)
    else if tag = 1 then
      let (a, bs) ← f.decode bs
      return (some a, bs)
    else
      .error (.optionTag tag)
  Fits o := ∀ a ∈ o, f.Fits a

/-- A list: its length, then its elements. -/
def list {α : Type} (f : Form α) : Form (List α) where
  encode as := writeLength as.length ++ as.flatMap f.encode
  decode bs := do
    let (n, bs) ← readLength bs
    f.decodeMany n bs
  Fits as := as.length < UInt64.size ∧ ∀ a ∈ as, f.Fits a

/-- One of a few values: its place among them. -/
def oneOf {α : Type} [DecidableEq α] (values : List α) : Form α where
  encode a := u32.encode (UInt32.ofNat (values.idxOf a))
  decode bs := do
    let (index, bs) ← u32.decode bs
    match values[index.toNat]? with
    | none => .error (.choice index values.length)
    | some a => .ok (a, bs)
  Fits _ := True

end Wire

end NextLedger
