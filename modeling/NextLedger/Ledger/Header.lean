import NextLedger.Hash256
import NextLedger.Amount

/-!
# Ledger headers

The parameters in force for the next ledger, and the two amounts that they fix: the least balance
that an account must keep, and the least fee that a transaction must offer. Both are refused when
they do not fit an amount.
-/

namespace NextLedger

/-- The header of a ledger. -/
structure LedgerHeader where
  sequence : UInt32
  /-- The hash of the ledger before this one. -/
  previous : Hash256
  /-- The least fee for one operation. -/
  baseFee : UInt32
  /-- The reserve for an account, twice, and for each of its sub-entries. -/
  baseReserve : UInt32
  /-- The greatest number of transactions in one set. -/
  maxSetSize : UInt32
  /-- Seconds since the start of 1970. -/
  closeTime : UInt64
deriving DecidableEq

namespace LedgerHeader

/-- The balance that an account with so many sub-entries must keep, as an exact number. -/
def minimumBalance (h : LedgerHeader) (subEntries : UInt32) : Nat :=
  (2 + subEntries.toNat) * h.baseReserve.toNat

/-- The balance that an account must keep, if it is an amount. -/
def minimumBalance? (h : LedgerHeader) (subEntries : UInt32) : Option Amount :=
  Amount.ofInt? (h.minimumBalance subEntries)

/-- The least fee for a transaction of so many operations, as an exact number. One without
operations is charged for one. -/
def minFee (h : LedgerHeader) (operations : Nat) : Nat := h.baseFee.toNat * max 1 operations

/-- The least fee for a transaction of so many operations, if it is an amount. The count is a word
of 64 bits and is read as a signed number. -/
def minFee? (h : LedgerHeader) (operations : UInt64) : Option Amount :=
  Amount.ofInt? (h.baseFee.toNat * (max 1 operations).toInt64.toInt)

end LedgerHeader

/-- A closed ledger: its hash and its header. -/
structure ClosedLedger where
  hash : Hash256
  header : LedgerHeader
deriving DecidableEq

end NextLedger
