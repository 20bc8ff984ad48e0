import NextLedger.Json.Form
import NextLedger.Ledger.State
import NextLedger.LogFormat
import NextLedger.Network

/-!
# The JSON form of ledgers

The accounts of a state are a list in ascending order. Of two accounts with one identifier in a text
the later one counts.
-/

namespace NextLedger

namespace Json.Form

/-- A ledger header. -/
def ledgerHeader : Form LedgerHeader :=
  (record
    ((Fields.required "ledger_seq" u32).and
      ((Fields.required "previous_ledger_hash" hash).and
        ((Fields.required "base_fee" u32).and
          ((Fields.required "base_reserve" u32).and
            ((Fields.required "max_tx_set_size" u32).and
              (.required "close_time" u64))))))).via
    (fun (sequence, previous, baseFee, baseReserve, maxSetSize, closeTime) =>
      ⟨sequence, previous, baseFee, baseReserve, maxSetSize, closeTime⟩)
    (fun h => (h.sequence, h.previous, h.baseFee, h.baseReserve, h.maxSetSize, h.closeTime))

/-- A closed ledger. -/
def closedLedger : Form ClosedLedger :=
  (record ((Fields.required "hash" hash).and (.required "header" ledgerHeader))).via
    (fun (hash, header) => ⟨hash, header⟩) (fun c => (c.hash, c.header))

/-- An account. -/
def accountEntry : Form AccountEntry :=
  (record
    ((Fields.required "account_id" account).and
      ((Fields.required "balance" i64).and
        ((Fields.required "seq_num" i64).and
          (.defaulted "num_sub_entries" u32 0))))).via
    (fun (id, balance, sequence, subEntries) => ⟨id, balance, sequence, subEntries⟩)
    (fun e => (e.id, e.balance, e.sequence, e.subEntries))

/-- The last closed ledger and a list of accounts, as they stand in the text of a ledger state. -/
def ledgerListing : Form (ClosedLedger × List AccountEntry) :=
  record
    ((Fields.required "last_closed" closedLedger).and
      (.defaulted "accounts" (list accountEntry) []))

/-- A ledger state. -/
def ledgerState : Form LedgerState :=
  ledgerListing.via (fun (closed, entries) => LedgerState.ofEntries closed entries)
    (fun s => (s.lastClosed, s.accounts.values))

/-- A network, by name. -/
def network : Form Network := oneOf Network.name Network.ofName?

/-- A log format, by name. -/
def logFormat : Form LogFormat := oneOf LogFormat.name LogFormat.ofName?

end Json.Form

end NextLedger
