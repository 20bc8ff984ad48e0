import NextLedger.Identifier

/-!
# Keys and signatures

The data of Ed25519 keys and signatures, without their arithmetic.
-/

namespace NextLedger

/-- A key that verifies signatures: a compressed point of the curve. -/
structure PublicKey where
  bytes : ByteVec 32
deriving DecidableEq

/-- The 32 octets from which a signing key is derived. -/
structure Seed where
  bytes : ByteVec 32
deriving DecidableEq

/-- A signature: a compressed point and a scalar. -/
structure Signature where
  bytes : ByteVec 64
deriving DecidableEq

/-- The last four octets of a key. It goes with a signature, so that a verifier can pass over keys
that cannot match. -/
structure Hint where
  bytes : ByteVec 4
deriving DecidableEq

/-- A seed together with the key that verifies its signatures. -/
structure KeyPair where
  seed : Seed
  key : PublicKey
deriving DecidableEq

/-- The hint of a key. -/
def PublicKey.hint (key : PublicKey) : Hint :=
  ⟨⟨key.bytes.toBytes.drop 28, by simp [key.bytes.length_eq]⟩⟩

namespace Signature

/-- The octets of the point. -/
def point (s : Signature) : Bytes := s.bytes.toBytes.take 32

/-- The octets of the scalar. -/
def scalar (s : Signature) : Bytes := s.bytes.toBytes.drop 32

end Signature

end NextLedger
