import NextLedger.Json.Printer
import NextLedger.Ledger.Chain
import NextLedger.Ledger.Json
import NextLedger.Transaction.Draft
import NextLedger.Transaction.Json
import NextLedger.TxSet.Wire

/-!
# Bundles

A bundle is what an operator keeps in a file: a ledger state and envelopes that might go on top of
it. Unless it says otherwise, its set is built on the last closed ledger.
-/

namespace NextLedger

/-- A ledger state and candidate envelopes. -/
structure Bundle where
  ledger : LedgerState
  /-- The hash of the ledger on which the set is built, if it is given. -/
  previous : Option Hash256
  envelopes : List Envelope
deriving DecidableEq

namespace Json.Form

/-- A bundle. -/
def bundle : Form Bundle :=
  (record
    ((Fields.required "ledger" ledgerState).and
      ((Fields.omitted "previous_ledger_hash" hash).and
        (.defaulted "transactions" (list envelope) [])))).via
    (fun (ledger, previous, envelopes) => ⟨ledger, previous, envelopes⟩)
    (fun b => (b.ledger, b.previous, b.envelopes))

end Json.Form

namespace Bundle

/-- The text of a bundle. -/
def toText (b : Bundle) : String := (Json.Form.bundle.write b).pretty

/-- The bundle that a text writes. -/
def ofText (s : String) : Except Json.Problem Bundle := Json.readAll Json.Form.bundle.read s

/-- The set of a bundle on the given network. -/
def txSet (b : Bundle) (network : Hash256) : TxSet :=
  .ofFrames (b.previous.getD b.ledger.lastClosed.hash)
    (b.envelopes.map (Frame.ofEnvelope network))

/-- The bundle with the envelopes of a set in place of its own. -/
def withTxSet (b : Bundle) (s : TxSet) : Bundle :=
  { b with previous := some s.previous, envelopes := s.toEnvelopes.envelopes }

/-! ### A demonstration -/

/-- The key pair whose seed consists of one octet. -/
def samplePair (n : UInt8) : KeyPair := .ofSeed ⟨.fill 32 n⟩

/-- A funded account for demonstrations. -/
def sampleEntry (n : UInt8) (balance : Int) : AccountEntry :=
  ⟨⟨(samplePair n).key⟩, Int64.ofInt balance, 0, 0⟩

/-- A small bundle for a network. Three accounts are funded beyond their reserve. Most envelopes are
valid; one leaves a gap in its account's sequence, and one account cannot pay for both of its
own. -/
def sample (n : Network) : Bundle :=
  let genesis := n.genesis
  let reserve : Int := genesis.lastClosed.header.minimumBalance 0
  let one := samplePair 1
  let two := samplePair 2
  let three := samplePair 3
  let root := n.rootKeyPair
  let ledger :=
    ((genesis.put (sampleEntry 1 (reserve + 10000000))).put
      (sampleEntry 2 (reserve + 10000000))).put (sampleEntry 3 (reserve + 150))
  let start (p : KeyPair) (sequence : SequenceNumber) : Draft := .start ⟨p.key⟩ sequence
  let pay (p : KeyPair) (amount : Amount) : Operation := .payment ⟨p.key⟩ amount
  ⟨ledger, none, [
    ((start one 1).withOperation (pay two 500)).sign n.id [one],
    ((((start one 2).withFee 300).withMemo "second").withOperation (pay three 25)).sign n.id [one],
    (((start two 1).withFee 250).withOperation (.bumpSequence 5)).sign n.id [two],
    ((start two 3).withOperation (pay one 1)).sign n.id [two],
    ((start three 1).withOperation (pay one 1)).sign n.id [three],
    ((start three 2).withOperation (pay one 1)).sign n.id [three],
    ((start root 1).withOperation
      (.createAccount ⟨(samplePair 4).key⟩ (Int64.ofInt (reserve * 10)))).sign n.id [root]]⟩

end Bundle

end NextLedger
