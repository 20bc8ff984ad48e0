import NextLedger.Transaction.Validity

/-!
# Faults of transaction sets

Why a set is refused, and the two kinds of violation that a walk over a set reports: a transaction
that is not valid where it stands, and an account that cannot pay for its transactions.
-/

namespace NextLedger

/-- A transaction that is not valid after the account's transaction numbered `lastSequence`. -/
structure SequenceViolation where
  transaction : Hash256
  account : AccountId
  sequence : SequenceNumber
  lastSequence : SequenceNumber
  reason : Invalidity
deriving DecidableEq

/-- The violation as a sentence. -/
def SequenceViolation.message (v : SequenceViolation) : String :=
  s!"tx {v.transaction.toHex} from {v.account.toHex} (seq {v.sequence}, last seq {v.lastSequence}) "
    ++ s!"is invalid: {v.reason.message}"

/-- An account that cannot pay the fees of all its valid transactions and keep its least balance. -/
structure AffordabilityViolation where
  account : AccountId
  /-- The last of the valid transactions. -/
  lastTransaction : Hash256
  balance : Amount
  totalFee : Amount
  minimumBalance : Amount
deriving DecidableEq

/-- The violation as a sentence. -/
def AffordabilityViolation.message (v : AffordabilityViolation) : String :=
  s!"account {v.account.toHex} can't pay fees: balance {v.balance} - fees {v.totalFee} "
    ++ s!"< minimum {v.minimumBalance} (last tx {v.lastTransaction.toHex})"

/-- Why a set is refused. -/
inductive SetFault
  /-- The transaction at `position` has a lower full hash than the one before it. -/
  | notCanonical (position : Nat)
  | sequence (violation : SequenceViolation)
  | affordability (violation : AffordabilityViolation)
  | previousMismatch (expected actual : Hash256)
  | tooMany (count max : Nat)
  | store (fault : StoreFault)
  /-- A least fee or a least balance is no amount. -/
  | overflow
deriving DecidableEq

/-- The fault as a sentence. -/
def SetFault.message : SetFault → String
  | .notCanonical position => s!"transactions are not in hash order at position {position}"
  | .sequence violation => s!"invalid transaction: {violation.message}"
  | .affordability violation => s!"affordability violation: {violation.message}"
  | .previousMismatch expected actual =>
    s!"set built on {actual.toHex}, expected last closed ledger {expected.toHex}"
  | .tooMany count max => s!"too many transactions: {count} > {max}"
  | .store fault => s!"store error: {fault.message}"
  | .overflow => "attempt to multiply with overflow"

end NextLedger
