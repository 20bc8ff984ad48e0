import NextLedger.Transaction.Order

/-!
# Transaction sets

A candidate or agreed set of transactions for the next ledger. It names the ledger on which it is
built and keeps its transactions in the order in which they came, duplicates included. Its
**contents hash** is taken over the transactions in canonical order and is remembered until the set
changes.
-/

namespace NextLedger

/-- A set of transactions on top of a ledger. -/
structure TxSet where
  /-- The hash of the ledger on which the set is built. -/
  previous : Hash256
  transactions : List Frame
  /-- The contents hash, if it has been taken since the last change. -/
  memo : Option Hash256
deriving DecidableEq

namespace TxSet

/-- The set without transactions. -/
def empty (previous : Hash256) : TxSet := ⟨previous, [], none⟩

/-- The set of some transactions in order. -/
def ofFrames (previous : Hash256) (fs : List Frame) : TxSet := ⟨previous, fs, none⟩

/-- The number of transactions. -/
def size (s : TxSet) : Nat := s.transactions.length

/-- The set on top of another ledger. -/
def withPrevious (s : TxSet) (previous : Hash256) : TxSet :=
  { s with previous := previous, memo := none }

/-- The set with one more transaction. -/
def add (s : TxSet) (f : Frame) : TxSet :=
  { s with transactions := s.transactions ++ [f], memo := none }

/-- Whether the set holds a transaction with the full hash of `f`. -/
def holds (s : TxSet) (f : Frame) : Bool :=
  s.transactions.any fun g => g.fullHash == f.fullHash

/-- The set without its first transaction with the full hash of `f`, if there is one. The contents
hash is forgotten even if there is none. -/
def remove (s : TxSet) (f : Frame) : TxSet :=
  { s with
    transactions := s.transactions.eraseP fun g => g.fullHash == f.fullHash
    memo := none }

/-- Removes some transactions one by one. The first component holds those that were found. -/
def removeEach : List Frame → TxSet → List Frame × TxSet
  | [], s => ([], s)
  | f :: fs, s =>
    let (found, rest) := removeEach fs (s.remove f)
    (if s.holds f then f :: found else found, rest)

/-- The set in canonical order. -/
def sort (s : TxSet) : TxSet :=
  { s with transactions := canonicalOrder s.transactions, memo := none }

/-- The digest of the previous hash and the transactions in their current order. -/
def digest (s : TxSet) : Hash256 :=
  sha256 (s.previous.toBytes ++ s.transactions.flatMap Frame.encoded)

/-- The set's contents hash, and the set with it remembered. -/
def contentsHash (s : TxSet) : Hash256 × TxSet :=
  match s.memo with
  | some h => (h, s)
  | none =>
    let sorted := s.sort
    let h := sorted.digest
    (h, { sorted with memo := some h })

/-- The transactions in the order in which they are applied, and the set with its contents hash
remembered. The contents hash is the mask. -/
def applyOrder (s : TxSet) : List Frame × TxSet :=
  let (h, s) := s.contentsHash
  (NextLedger.applyOrder h s.transactions, s)

/-- The number of operations in all transactions. -/
def operationCount (s : TxSet) : Nat := s.transactions.foldr (fun f n => f.operationCount + n) 0

/-- The lowest fee for one operation, rounded down, among the transactions that have operations, and
zero if none has. -/
def lowestFee (s : TxSet) : Nat :=
  let fees := (s.transactions.filter fun f => f.operationCount ≠ 0).map fun f =>
    f.transaction.fee.toNat / f.operationCount
  fees.min?.getD 0

/-- A line about the set, for people. -/
def summary (s : TxSet) : String :=
  if s.transactions.isEmpty then "empty tx set"
  else s!"txs:{s.size}, ops:{s.operationCount}, base_fee:{s.lowestFee}"

end TxSet

end NextLedger
