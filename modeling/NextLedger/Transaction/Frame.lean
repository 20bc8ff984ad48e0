import NextLedger.Transaction.Wire
import NextLedger.Ledger.Header
import NextLedger.Sha2.Sha256
import NextLedger.Ed25519

/-!
# Frames

What is signed is the **payload**: a digest of the network's id and the transaction, without
signatures. A **frame** is an envelope on a network together with its octets and its two names: the
payload, and the **full hash** of the octets, by which transaction sets tell transactions apart.
-/

namespace NextLedger

namespace Envelope

/-- The envelope's octets. -/
def toBytes (e : Envelope) : Bytes := Wire.envelope.encode e

/-- What signers commit to on the network with the given id. -/
def payload (e : Envelope) (network : Hash256) : Hash256 :=
  sha256 (network.toBytes ++ Wire.transaction.encode e.transaction)

/-- The envelope with one more signature, by the given key pair. -/
def sign (e : Envelope) (network : Hash256) (signer : KeyPair) : Envelope :=
  { e with signatures := e.signatures ++
      [⟨signer.key.hint, signer.sign (e.payload network).toBytes⟩] }

/-- Reads an envelope. What follows it is ignored. -/
def ofBytes (bs : Bytes) : Except Wire.Fault Envelope := (Wire.envelope.decode bs).map (·.1)

end Envelope

/-- An envelope on a network, with its octets and its names. -/
structure Frame where
  network : Hash256
  envelope : Envelope
  encoded : Bytes
  fullHash : Hash256
  payload : Hash256
  encoded_eq : encoded = envelope.toBytes
  fullHash_eq : fullHash = sha256 encoded
  payload_eq : payload = envelope.payload network

namespace Frame

/-- The frame of an envelope. -/
def ofEnvelope (network : Hash256) (e : Envelope) : Frame :=
  let encoded := e.toBytes
  ⟨network, e, encoded, sha256 encoded, e.payload network, rfl, rfl, rfl⟩

/-- A frame is determined by its network and its envelope. -/
@[ext] theorem ext {f g : Frame} (hn : f.network = g.network) (he : f.envelope = g.envelope) :
    f = g := by
  obtain ⟨n, e, b, h, p, rfl, rfl, rfl⟩ := f
  obtain ⟨n', e', b', h', p', rfl, rfl, rfl⟩ := g
  cases hn
  cases he
  rfl

@[simp] theorem ofEnvelope_envelope (f : Frame) : ofEnvelope f.network f.envelope = f := by
  ext <;> rfl

instance : DecidableEq Frame := fun f g =>
  if h : f.network = g.network ∧ f.envelope = g.envelope then isTrue (ext h.1 h.2)
  else isFalse fun e => h (e ▸ ⟨rfl, rfl⟩)

/-- The frame that octets write. -/
def ofBytes (network : Hash256) (bs : Bytes) : Except Wire.Fault Frame :=
  (Envelope.ofBytes bs).map (ofEnvelope network)

/-- The transaction of a frame. -/
def transaction (f : Frame) : Transaction := f.envelope.transaction

/-- The source account. -/
def source (f : Frame) : AccountId := f.transaction.source

/-- The sequence number. -/
def sequence (f : Frame) : SequenceNumber := f.transaction.sequence

/-- The fee offered. -/
def fee (f : Frame) : Amount := f.transaction.fee.toUInt64.toInt64

/-- The number of operations. -/
def operationCount (f : Frame) : Nat := f.transaction.operations.length

/-- The least fee that a ledger takes for the transaction, if it is an amount. -/
def minFee? (f : Frame) (header : LedgerHeader) : Option Amount :=
  header.minFee? (UInt64.ofNat f.operationCount)

end Frame

end NextLedger
