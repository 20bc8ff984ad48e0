import NextLedger.Ledger.State
import NextLedger.LogFormat
import NextLedger.Network
import NextLedger.Wire

/-!
# The wire format of ledgers

The forms of headers, which are hashed to name ledgers, and of accounts and whole states.
-/

namespace NextLedger

namespace Wire

/-- A ledger header, field after field. -/
def ledgerHeader : Form LedgerHeader :=
  (u32.and (hash.and (u32.and (u32.and (u32.and u64))))).via
    (fun (sequence, previous, baseFee, baseReserve, maxSetSize, closeTime) =>
      ⟨sequence, previous, baseFee, baseReserve, maxSetSize, closeTime⟩)
    (fun h => (h.sequence, h.previous, h.baseFee, h.baseReserve, h.maxSetSize, h.closeTime))

/-- A closed ledger: its hash, then its header. -/
def closedLedger : Form ClosedLedger :=
  (hash.and ledgerHeader).via (fun (hash, header) => ⟨hash, header⟩) (fun c => (c.hash, c.header))

/-- An account, field after field. -/
def accountEntry : Form AccountEntry :=
  (account.and (i64.and (i64.and u32))).via
    (fun (id, balance, sequence, subEntries) => ⟨id, balance, sequence, subEntries⟩)
    (fun e => (e.id, e.balance, e.sequence, e.subEntries))

/-- A ledger state: the last closed ledger, then the accounts. -/
def ledgerState : Form LedgerState :=
  (closedLedger.and (list accountEntry)).via
    (fun (closed, entries) => LedgerState.ofEntries closed entries)
    (fun s => (s.lastClosed, s.accounts.values))

/-- A network, by number. -/
def network : Form Network := oneOf Network.all

/-- A log format, by number. -/
def logFormat : Form LogFormat := oneOf LogFormat.all

end Wire

end NextLedger
