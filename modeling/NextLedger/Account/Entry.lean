import NextLedger.Account.Id
import NextLedger.Amount

/-!
# Account entries

What the ledger holds about an account.
-/

namespace NextLedger

/-- An account's state in the ledger. -/
structure AccountEntry where
  id : AccountId
  balance : Amount
  /-- The sequence number of the account's last transaction. -/
  sequence : SequenceNumber
  /-- The number of things the account owns that raise its reserve. -/
  subEntries : UInt32
deriving DecidableEq

end NextLedger
