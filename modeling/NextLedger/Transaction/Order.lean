import NextLedger.Sorting
import NextLedger.Transaction.Frame

/-!
# Orders of transactions

**Canonical order** ascends by full hash; sets are hashed and checked in it. **Apply order** runs in
rounds: round `i` holds the `i`-th transaction, by sequence number, of every account that has so
many. Within a round the order is that of the full hashes under a mask, so that nobody can choose a
place without changing the set.
-/

namespace NextLedger

namespace Frame

/-- Whether `f` may stand before `g` in canonical order. -/
def canonicalLe (f g : Frame) : Bool := decide (f.fullHash ≤ g.fullHash)

/-- Which of two transactions has the lower sequence number, then the lower full hash. -/
def sequenceOrder (f g : Frame) : Ordering :=
  if f.sequence < g.sequence then .lt
  else if g.sequence < f.sequence then .gt
  else f.fullHash.order g.fullHash

/-- Whether `f` may stand before `g` by sequence number alone. -/
def sequenceLe (f g : Frame) : Bool := decide (f.sequence ≤ g.sequence)

end Frame

/-- The transactions in canonical order. -/
def canonicalOrder (fs : List Frame) : List Frame := Sorting.sortBy Frame.canonicalLe fs

/-- The place, counted from `position`, of the first transaction whose full hash is below that of
the one before it. Before the first stands one with the hash `last`. -/
def descentAfter? (last : Hash256) (position : Nat) : List Frame → Option Nat
  | [] => none
  | f :: fs =>
    if f.fullHash < last then some position else descentAfter? f.fullHash (position + 1) fs

/-- The index of the first transaction whose full hash is below that of the one before it. No hash
is below zero, so it is never the first of all. -/
def firstDescent? (fs : List Frame) : Option Nat := descentAfter? .zero 0 fs

/-- Whether transactions are in canonical order. Equal neighbours are. -/
def isCanonical : List Frame → Bool
  | [] => true
  | [_] => true
  | f :: g :: fs => decide (f.fullHash ≤ g.fullHash) && isCanonical (g :: fs)

/-- Each transaction with its **rank**: how many of the transactions before it, those of the sources
`before` among them, are of the same account. -/
def ranked (before : List AccountId) : List Frame → List (Nat × Frame)
  | [] => []
  | f :: fs => (before.count f.source, f) :: ranked (f.source :: before) fs

/-- The rounds of some transactions: round `i` holds those of rank `i` by sequence number. -/
def rounds (fs : List Frame) : List (List Frame) :=
  let ranks := ranked [] (Sorting.sortBy (fun f g => f.sequenceOrder g != .gt) fs)
  (List.range fs.length).map fun i =>
    (ranks.filter fun p => p.1 == i).map (·.2)

/-- The order in which transactions are applied, for the given mask. -/
def applyOrder (mask : Hash256) (fs : List Frame) : List Frame :=
  (rounds fs).flatMap
    (Sorting.sortBy fun f g => Hash256.orderMasked mask f.fullHash g.fullHash != .gt)

end NextLedger
