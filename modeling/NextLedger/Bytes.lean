/-!
# Byte strings

A byte string is a list of octets. This file has the two integer encodings that the ledger's formats
use, little-endian for the wire and big-endian for digests, and byte strings of a known length,
which identifiers and signatures are.

Byte strings are ordered lexicographically, octets as unsigned numbers; for strings of one length
this is the order of the big-endian numbers that they write.
-/

namespace NextLedger

/-- A byte string. -/
abbrev Bytes := List UInt8

namespace Bytes

/-! ### Integers of a fixed width -/

/-- The `width` lowest base-256 digits of `n`, least significant first. -/
def ofNatLE : (width : Nat) → (n : Nat) → Bytes
  | 0, _ => []
  | width + 1, n => UInt8.ofNat n :: ofNatLE width (n / 256)

/-- The number that the octets write, least significant first. -/
def toNatLE : Bytes → Nat
  | [] => 0
  | b :: bs => b.toNat + 256 * toNatLE bs

/-- The `width` lowest base-256 digits of `n`, most significant first. -/
def ofNatBE (width n : Nat) : Bytes := (ofNatLE width n).reverse

/-- The number that the octets write, most significant first. -/
def toNatBE (bs : Bytes) : Nat := toNatLE bs.reverse

@[simp] theorem length_ofNatLE (width n : Nat) : (ofNatLE width n).length = width := by
  induction width generalizing n with
  | zero => rfl
  | succ width ih => simp [ofNatLE, ih]

@[simp] theorem length_ofNatBE (width n : Nat) : (ofNatBE width n).length = width := by
  simp [ofNatBE]

/-- The bytewise exclusive or of two strings of one length. -/
def xor (l r : Bytes) : Bytes := List.zipWith (· ^^^ ·) l r

theorem length_xor {l r : Bytes} (h : l.length = r.length) : (xor l r).length = l.length := by
  simp [xor, h]

end Bytes

/-! ### Byte strings of a known length -/

/-- A byte string of length `n`. -/
structure ByteVec (n : Nat) where
  toBytes : Bytes
  length_eq : toBytes.length = n
deriving DecidableEq

namespace ByteVec

variable {n : Nat}

@[ext] theorem ext {l r : ByteVec n} (h : l.toBytes = r.toBytes) : l = r := by
  cases l; cases r; cases h; rfl

/-- A byte string as one of length `n`, if that is its length. -/
def ofBytes? (n : Nat) (bs : Bytes) : Option (ByteVec n) :=
  if h : bs.length = n then some ⟨bs, h⟩ else none

@[simp] theorem ofBytes?_toBytes (v : ByteVec n) : ofBytes? n v.toBytes = some v := by
  simp [ofBytes?, v.length_eq]

/-- `n` copies of one octet. -/
def fill (n : Nat) (b : UInt8) : ByteVec n := ⟨List.replicate n b, List.length_replicate⟩

/-- The bytewise exclusive or. -/
def xor (l r : ByteVec n) : ByteVec n :=
  ⟨Bytes.xor l.toBytes r.toBytes, by
    rw [Bytes.length_xor (by rw [l.length_eq, r.length_eq]), l.length_eq]⟩

instance : LT (ByteVec n) := ⟨fun l r => l.toBytes < r.toBytes⟩

instance : LE (ByteVec n) := ⟨fun l r => l.toBytes ≤ r.toBytes⟩

instance (l r : ByteVec n) : Decidable (l < r) :=
  inferInstanceAs (Decidable (l.toBytes < r.toBytes))

instance (l r : ByteVec n) : Decidable (l ≤ r) :=
  inferInstanceAs (Decidable (l.toBytes ≤ r.toBytes))

theorem lt_iff {l r : ByteVec n} : l < r ↔ l.toBytes < r.toBytes := Iff.rfl

theorem le_iff {l r : ByteVec n} : l ≤ r ↔ l.toBytes ≤ r.toBytes := Iff.rfl

end ByteVec

end NextLedger
