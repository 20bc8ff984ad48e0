import NextLedger.Transaction.Json
import NextLedger.TxSet.Wire

/-!
# The JSON form of transaction sets

The envelopes of a set, as peers exchange them.
-/

namespace NextLedger

namespace Json.Form

/-- The envelopes of a set and the hash of the ledger on which it is built. -/
def envelopeSet : Form EnvelopeSet :=
  (record ((Fields.required "previous_ledger_hash" hash).and (.required "txs" (list envelope)))).via
    (fun (previous, envelopes) => ⟨previous, envelopes⟩) (fun s => (s.previous, s.envelopes))

end Json.Form

end NextLedger
