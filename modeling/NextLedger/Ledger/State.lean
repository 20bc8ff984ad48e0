import NextLedger.Account.Entry
import NextLedger.Account.Map
import NextLedger.Ledger.Header

/-!
# Ledger states and views

A **ledger state** is the last closed ledger and every account. What builds and checks transaction
sets reads a ledger through a **view**: the last closed ledger, and a way to load accounts that may
fail and may depend on what was loaded before.
-/

namespace NextLedger

/-- Why an account cannot be loaded. -/
inductive StoreFault
  | notFound (key : String)
  | backend (detail : String)
  | serialization (detail : String)
deriving DecidableEq

/-- The fault as a sentence. -/
def StoreFault.message : StoreFault → String
  | .notFound key => s!"key not found: {key}"
  | .backend detail => s!"storage backend error: {detail}"
  | .serialization detail => s!"serialization error: {detail}"

/-- The last closed ledger and every account. -/
structure LedgerState where
  lastClosed : ClosedLedger
  accounts : AccountMap AccountEntry
deriving DecidableEq

namespace LedgerState

/-- A state without accounts. -/
def ofClosed (closed : ClosedLedger) : LedgerState := ⟨closed, .empty⟩

/-- Puts an account into the state, in place of the one with its identifier. -/
def put (s : LedgerState) (entry : AccountEntry) : LedgerState :=
  { s with accounts := s.accounts.insert entry.id entry }

/-- A state with each of some accounts, the last of those with one identifier. -/
def ofEntries (closed : ClosedLedger) (entries : List AccountEntry) : LedgerState :=
  ⟨closed, .ofList (entries.map fun entry => (entry.id, entry))⟩

/-- The account with an identifier. -/
def load (s : LedgerState) (id : AccountId) : Except StoreFault AccountEntry :=
  match s.accounts.get? id with
  | some entry => .ok entry
  | none => .error (.notFound id.toHex)

end LedgerState

/-- Read access to a ledger. Loading an account passes on a state of type `σ`, so that a view may
answer differently from call to call. -/
structure LedgerView (σ : Type) where
  lastClosed : ClosedLedger
  load : AccountId → σ → Except StoreFault AccountEntry × σ

namespace LedgerView

/-- The view that always gives the same answer for one account. -/
def fixed (closed : ClosedLedger) (load : AccountId → Except StoreFault AccountEntry) :
    LedgerView Unit where
  lastClosed := closed
  load id u := (load id, u)

/-- The view of a ledger state. -/
def ofState (s : LedgerState) : LedgerView Unit := fixed s.lastClosed s.load

variable {σ : Type}

/-- The header of the last closed ledger. -/
def header (v : LedgerView σ) : LedgerHeader := v.lastClosed.header

/-- The greatest number of transactions in one set. -/
def maxSetSize (v : LedgerView σ) : Nat := v.header.maxSetSize.toNat

end LedgerView

end NextLedger
