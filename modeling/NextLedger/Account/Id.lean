import NextLedger.Key

/-!
# Account identifiers

An account is named by the key that signs for it. Identifiers are ordered by their octets; this
order settles ties between accounts wherever nodes have to agree.
-/

namespace NextLedger

/-- The name of an account. -/
structure AccountId where
  key : PublicKey
deriving DecidableEq

namespace AccountId

/-- The octets of an identifier. -/
def toBytes (a : AccountId) : Bytes := a.key.bytes.toBytes

@[simp] theorem length_toBytes (a : AccountId) : a.toBytes.length = 32 := a.key.bytes.length_eq

@[ext] theorem ext {a b : AccountId} (h : a.toBytes = b.toBytes) : a = b := by
  obtain ⟨⟨v⟩⟩ := a
  obtain ⟨⟨w⟩⟩ := b
  congr
  exact ByteVec.ext h

/-- The identifier that 64 hexadecimal digits write. -/
def ofHex (s : String) : Except IdentifierFault AccountId :=
  (ByteVec.ofHex 32 s).map fun v => ⟨⟨v⟩⟩

/-- The 64 hexadecimal digits of an identifier. -/
def toHex (a : AccountId) : String := a.key.bytes.toHex

instance : LT AccountId := ⟨fun a b => a.key.bytes < b.key.bytes⟩

instance : LE AccountId := ⟨fun a b => a.key.bytes ≤ b.key.bytes⟩

instance (a b : AccountId) : Decidable (a < b) :=
  inferInstanceAs (Decidable (a.key.bytes < b.key.bytes))

instance (a b : AccountId) : Decidable (a ≤ b) :=
  inferInstanceAs (Decidable (a.key.bytes ≤ b.key.bytes))

theorem lt_iff {a b : AccountId} : a < b ↔ a.toBytes < b.toBytes := Iff.rfl

theorem le_iff {a b : AccountId} : a ≤ b ↔ a.toBytes ≤ b.toBytes := Iff.rfl

/-- Which of two identifiers comes first. -/
def order (a b : AccountId) : Ordering :=
  if a < b then .lt else if b < a then .gt else .eq

end AccountId

end NextLedger
