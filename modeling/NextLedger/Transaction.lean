import NextLedger.Account.Id
import NextLedger.Amount

/-!
# Transactions

A transaction is a list of operations on behalf of one **source** account. An envelope adds the
signatures; each comes with a hint at the key that made it.
-/

namespace NextLedger

/-- A step of a transaction. -/
inductive Operation
  /-- Create an account and fund it. -/
  | createAccount (destination : AccountId) (startingBalance : Amount)
  /-- Move balance to an account that exists. -/
  | payment (destination : AccountId) (amount : Amount)
  /-- Raise the source's sequence number. -/
  | bumpSequence (bumpTo : SequenceNumber)
deriving DecidableEq

/-- A transaction, without signatures. -/
structure Transaction where
  source : AccountId
  /-- The fee offered for all operations together. -/
  fee : UInt32
  sequence : SequenceNumber
  memo : Option String
  operations : List Operation
deriving DecidableEq

/-- A signature and the last octets of the key that made it. -/
structure HintedSignature where
  hint : Hint
  signature : Signature
deriving DecidableEq

/-- A transaction and its signatures. -/
structure Envelope where
  transaction : Transaction
  signatures : List HintedSignature
deriving DecidableEq

end NextLedger
