import NextLedger.Proofs.ContentsHash
import NextLedger.Proofs.Walk.Reports

/-!
# The order of arrival does not matter

Nodes collect the same candidates in different orders. Whatever they do next begins with canonical
order: trimming, the contents hash, and with it the order in which the set is applied. As long as no
two different transactions have one full hash, canonical order leaves nothing of the order of
arrival (`sort_eq_of_perm`), not even among duplicates, so that all nodes go on with one set. A hash
that one of them took earlier changes nothing, since it is never stale.
-/

namespace NextLedger

namespace TxSet

variable {s t : TxSet}

/-- Sets of the same transactions on top of one ledger are equal once they are sorted. -/
theorem sort_eq_of_perm (hcoll : NoCollision s.transactions) (hprevious : s.previous = t.previous)
    (hperm : s.transactions.Perm t.transactions) : s.sort = t.sort := by
  rw [sort, sort, hprevious, canonicalOrder_eq_of_perm hcoll hperm]

/-- Sets that are equal once they are sorted are trimmed alike, whatever the ledger view answers
over time. -/
theorem trim_eq_of_sort_eq {σ : Type} (h : s.sort = t.sort) (view : LedgerView σ)
    (policy : Policy) (store : σ) : s.trim view policy store = t.trim view policy store := by
  rw [trim, trim, h]

/-- Fresh sets that are equal once they are sorted have one contents hash, and are equal once it is
taken. -/
theorem Fresh.contentsHash_eq_of_sort_eq (hs : s.Fresh) (ht : t.Fresh) (h : s.sort = t.sort) :
    s.contentsHash = t.contentsHash := by
  rw [hs.contentsHash_eq, ht.contentsHash_eq, h]

theorem Fresh.applyOrder_eq_of_sort_eq (hs : s.Fresh) (ht : t.Fresh) (h : s.sort = t.sort) :
    s.applyOrder = t.applyOrder := by
  rw [applyOrder, applyOrder, hs.contentsHash_eq_of_sort_eq ht h]

/-- **Nodes that collected the same candidates in different orders agree.** Over a ledger with fixed
answers, under any policy, and as long as nothing overflows: trimming succeeds on both sides, leaves
the same transactions in the same order and removes the same, and what is left has one contents hash
and one order in which it is applied. Without trimming the sets have these in common already. -/
theorem agree_in_any_order (s t : TxSet) (hs : s.Reachable) (ht : t.Reachable)
    (closed : ClosedLedger) (load : AccountId → Except StoreFault AccountEntry) (policy : Policy)
    (network : Hash256) (hprevious : s.previous = t.previous)
    (hperm : s.transactions.Perm t.transactions)
    (hnetwork : ∀ f ∈ s.transactions, f.network = network)
    (hcoll : ∀ f ∈ s.transactions, ∀ g ∈ s.transactions,
      f.fullHash = g.fullHash → f.envelope = g.envelope)
    (hrange : s.NoOverflow (.fixed closed load) policy) :
    let one := s.trim (.fixed closed load) policy ()
    let other := t.trim (.fixed closed load) policy ()
    (one.1 = .ok () ∧ other.1 = .ok ()) ∧
    one.2.set.transactions = other.2.set.transactions ∧
    one.2.removed = other.2.removed ∧
    one.2.set.contentsHash.1 = other.2.set.contentsHash.1 ∧
    one.2.set.applyOrder.1 = other.2.set.applyOrder.1 ∧
    s.contentsHash.1 = t.contentsHash.1 ∧
    s.applyOrder.1 = t.applyOrder.1 := by
  intro one other
  have hsort : s.sort = t.sort :=
    sort_eq_of_perm (noCollision_of_network hnetwork hcoll) hprevious hperm
  -- Trimming sorts before it looks at anything, so the two runs are one.
  have htrim : one = other := trim_eq_of_sort_eq hsort (.fixed closed load) policy ()
  have hok : one.1 = .ok () := congrArg Prod.fst (trim_eq_dropAll hrange)
  rw [← htrim]
  refine ⟨⟨hok, hok⟩, rfl, rfl, rfl, rfl, ?_, ?_⟩
  · rw [hs.fresh.contentsHash_eq_of_sort_eq ht.fresh hsort]
  · rw [hs.fresh.applyOrder_eq_of_sort_eq ht.fresh hsort]

/-- The case of a contested set, and of the same transactions the other way round. -/
theorem contested_in_both_orders :
    let closed := Sample.ledger.lastClosed
    let load := Sample.ledger.load
    let policy := Whitelist.disabled.toPolicy
    let reversed := ofFrames .zero Sample.contested.transactions.reverse
    Sample.contested.contentsHash.1 = reversed.contentsHash.1 ∧
      (Sample.contested.trim (.fixed closed load) policy ()).2.set.transactions =
        (reversed.trim (.fixed closed load) policy ()).2.set.transactions := by
  intro closed load policy reversed
  have hperm : Sample.contested.transactions.Perm reversed.transactions :=
    (List.reverse_perm _).symm
  have hrange : Sample.contested.NoOverflow (.fixed closed load) policy :=
    Sample.amountsFit_contested.noOverflow policy
  obtain ⟨-, htransactions, -, -, -, hhash, -⟩ := agree_in_any_order Sample.contested reversed
    (reachable_ofFrames _ _) (reachable_ofFrames _ _) closed load policy .zero rfl hperm
    (by decide) (by decide +kernel) hrange
  exact ⟨hhash, htransactions⟩

end TxSet

end NextLedger
