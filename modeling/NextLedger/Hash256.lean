import NextLedger.Identifier

/-!
# Hashes of 256 bits

Hashes are ordered as big-endian numbers of 256 bits. **Canonical order** of transactions is this
order. A **masked** order compares two hashes after an exclusive or with a common mask, so that
nobody who does not know the mask beforehand can choose a place in it.
-/

namespace NextLedger

/-- A hash of 256 bits. -/
structure Hash256 where
  bytes : ByteVec 32
deriving DecidableEq

namespace Hash256

@[ext] theorem ext {l r : Hash256} (h : l.bytes.toBytes = r.bytes.toBytes) : l = r := by
  cases l; cases r; congr; exact ByteVec.ext h

/-- The octets of a hash. -/
def toBytes (h : Hash256) : Bytes := h.bytes.toBytes

@[simp] theorem length_toBytes (h : Hash256) : h.toBytes.length = 32 := h.bytes.length_eq

/-- The hash whose octets are all zero. -/
def zero : Hash256 := ⟨.fill 32 0⟩

/-- The hash that 64 hexadecimal digits write. -/
def ofHex (s : String) : Except IdentifierFault Hash256 := (ByteVec.ofHex 32 s).map (⟨·⟩)

/-- The 64 hexadecimal digits of a hash. -/
def toHex (h : Hash256) : String := h.bytes.toHex

/-- The first eight hexadecimal digits of a hash. -/
def short (h : Hash256) : String := h.bytes.short

instance : LT Hash256 := ⟨fun l r => l.bytes < r.bytes⟩

instance : LE Hash256 := ⟨fun l r => l.bytes ≤ r.bytes⟩

instance (l r : Hash256) : Decidable (l < r) := inferInstanceAs (Decidable (l.bytes < r.bytes))

instance (l r : Hash256) : Decidable (l ≤ r) := inferInstanceAs (Decidable (l.bytes ≤ r.bytes))

theorem lt_iff {l r : Hash256} : l < r ↔ l.toBytes < r.toBytes := Iff.rfl

theorem le_iff {l r : Hash256} : l ≤ r ↔ l.toBytes ≤ r.toBytes := Iff.rfl

/-- Which of two hashes comes first. -/
def order (l r : Hash256) : Ordering :=
  if l < r then .lt else if r < l then .gt else .eq

/-- The bytewise exclusive or. -/
def xor (l r : Hash256) : Hash256 := ⟨l.bytes.xor r.bytes⟩

/-- Whether `l` comes before `r` under `mask`. -/
def lessMasked (mask l r : Hash256) : Bool := decide (l.xor mask < r.xor mask)

/-- Which of two hashes comes first under `mask`. -/
def orderMasked (mask l r : Hash256) : Ordering :=
  if lessMasked mask l r then .lt else if lessMasked mask r l then .gt else .eq

end Hash256

end NextLedger
