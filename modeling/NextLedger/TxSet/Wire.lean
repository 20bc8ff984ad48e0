import NextLedger.TxSet

/-!
# The wire format of transaction sets

What peers exchange: the hash of the ledger on which a set is built, and its envelopes. A peer makes
frames of the envelopes for its own network.
-/

namespace NextLedger

/-- The envelopes of a set and the hash of the ledger on which it is built. -/
structure EnvelopeSet where
  previous : Hash256
  envelopes : List Envelope
deriving DecidableEq

namespace Wire

/-- A set: the previous hash, then the envelopes. -/
def envelopeSet : Form EnvelopeSet :=
  (hash.and (list envelope)).via (fun (previous, envelopes) => ⟨previous, envelopes⟩)
    (fun s => (s.previous, s.envelopes))

end Wire

namespace EnvelopeSet

/-- The octets of some envelopes as a set. -/
def toBytes (s : EnvelopeSet) : Bytes := Wire.envelopeSet.encode s

/-- Reads the envelopes of a set. What follows them is ignored. -/
def ofBytes (bs : Bytes) : Except Wire.Fault EnvelopeSet := (Wire.envelopeSet.decode bs).map (·.1)

end EnvelopeSet

namespace TxSet

/-- The set of some envelopes, as frames of the given network. -/
def ofEnvelopes (network : Hash256) (s : EnvelopeSet) : TxSet :=
  ofFrames s.previous (s.envelopes.map (Frame.ofEnvelope network))

/-- The envelopes of a set in their current order. -/
def toEnvelopes (s : TxSet) : EnvelopeSet := ⟨s.previous, s.transactions.map Frame.envelope⟩

/-- The octets of a set in its current order. -/
def toBytes (s : TxSet) : Bytes := Wire.envelopeSet.encode s.toEnvelopes

/-- The set that octets write, for the given network. What follows it is ignored. -/
def ofBytes (network : Hash256) (bs : Bytes) : Except Wire.Fault TxSet :=
  (Wire.envelopeSet.decode bs).map fun (s, _) => ofEnvelopes network s

end TxSet

end NextLedger
