import NextLedger.Account.Map
import NextLedger.Binary64
import NextLedger.Transaction.Order

/-!
# Priority

When a set is too large, transactions are ranked. The transactions of one account stay together, by
sequence number. The holder's come first. Privileged accounts follow by identifier, ordinary ones by
what they offer: an account counts for the lowest ratio of fee to least fee among its transactions,
and the higher ratio goes first.
-/

namespace NextLedger

/-- A transaction's fee over the least fee that the ledger takes for it. The latter is taken as an
exact number, and is not refused where it is no amount, which takes more than `2 ^ 31` operations in
one transaction. Up to there it is the amount that a check would ask for. -/
def Frame.feeRatio (f : Frame) (header : LedgerHeader) : Binary64 :=
  Binary64.quotient f.transaction.fee.toNat (header.minFee f.operationCount)

/-- An account's ratio after one more of its transactions is seen. A ratio of zero counts as none
seen yet, and the next ratio takes its place whatever it is. -/
def lowerRatio (seen next : Binary64) : Binary64 :=
  if seen.isZero || next.less seen then next else seen

/-- The lowest ratio of each account, over transactions in the order given. -/
def accountFeeRatios (header : LedgerHeader) (fs : List Frame) : AccountMap Binary64 :=
  fs.foldl
    (fun ratios f =>
      ratios.insert f.source
        (lowerRatio ((ratios.get? f.source).getD .zero) (f.feeRatio header)))
    .empty

/-- How the transactions of one class are ranked. -/
structure Priority where
  ratios : AccountMap Binary64
  /-- Whether the class is that of privileged accounts, for which ratios do not count. -/
  privileged : Bool
  holder : Option AccountId

namespace Priority

/-- An account's ratio, zero if it has none. -/
def ratio (p : Priority) (a : AccountId) : Binary64 := (p.ratios.get? a).getD .zero

/-- Which of two transactions ranks first. -/
def compare (p : Priority) (f g : Frame) : Ordering :=
  if f.source = g.source then f.sequenceOrder g
  else if p.holder = some f.source then .lt
  else if p.holder = some g.source then .gt
  else if p.privileged then f.source.order g.source
  else ((p.ratio g.source).totalOrder (p.ratio f.source)).then (f.source.order g.source)

/-- The transactions by descending priority. -/
def sort (p : Priority) (fs : List Frame) : List Frame :=
  Sorting.sortBy (fun f g => p.compare f g != .gt) fs

end Priority

end NextLedger
