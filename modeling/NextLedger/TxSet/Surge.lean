import NextLedger.Ledger.State
import NextLedger.Policy
import NextLedger.TxSet
import NextLedger.TxSet.Priority

/-!
# Surge pricing

A set beyond the ledger's capacity is cut down to it. Ordinary transactions are guaranteed their
reserve, privileged ones have the rest, and either class may use what the other leaves. Within a
class the lowest ranks go.
-/

namespace NextLedger

namespace TxSet

variable {σ : Type}

/-- Cuts a set down to the capacity of a ledger. The first component holds the transactions removed.
A set within capacity is left as it is. Least fees are exact numbers here (`Frame.feeRatio`): that
of a transaction with more than `2 ^ 31` operations counts even where it is no amount. -/
def surge (s : TxSet) (view : LedgerView σ) (policy : Policy) : List Frame × TxSet :=
  let max := view.maxSetSize
  if s.size ≤ max then ([], s)
  else
    let privileged := s.transactions.filter fun f => policy.isPrivileged f.source
    let ordinary := s.transactions.filter fun f => !policy.isPrivileged f.source
    let reserve := min (policy.reserve max) ordinary.length
    let ratios := accountFeeRatios view.header s.transactions
    let privilegedCapacity := max - reserve
    let ordinaryCapacity := reserve + (privilegedCapacity - privileged.length)
    let privilegedTail :=
      (Priority.sort ⟨ratios, true, policy.holder⟩ privileged).drop privilegedCapacity
    let ordinaryTail :=
      (Priority.sort ⟨ratios, false, policy.holder⟩ ordinary).drop ordinaryCapacity
    s.removeEach (privilegedTail ++ ordinaryTail)

end TxSet

end NextLedger
