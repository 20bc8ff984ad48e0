import NextLedger.Proofs.Comparison

/-!
# Turns

The **turns** of an account are its transactions by sequence number, then by full hash. Every
algorithm that puts transactions in some order keeps the turns of each account: whatever it does
between accounts, sorting by number and hash and picking out one account gives that account's turns
(`filter_source_sortBy`).

A walk takes the turns as well, though it gets them in another way, with a stable sort by number of
what stands in canonical order: the full hashes are the same in any case
(`map_number_and_hash_turnsOf`), and the transactions are as long as full hashes tell them apart
(`turnsOf_eq_groupOf`).
-/

namespace NextLedger

/-- The transactions of an account by sequence number, then by full hash. -/
def turnsOf (fs : List Frame) (a : AccountId) : List Frame :=
  Sorting.sortBy (fun f g => f.sequenceOrder g != .gt) (fs.filter fun f => f.source == a)

theorem turnsOf_perm (fs : List Frame) (a : AccountId) :
    (turnsOf fs a).Perm (fs.filter fun f => f.source == a) :=
  Sorting.sortBy_perm _ _

@[simp] theorem mem_turnsOf {fs : List Frame} {a : AccountId} {f : Frame} :
    f ∈ turnsOf fs a ↔ f ∈ fs ∧ f.source = a := by
  simp [turnsOf]

theorem length_turnsOf_le (fs : List Frame) (a : AccountId) :
    (turnsOf fs a).length ≤ fs.length := by
  rw [(turnsOf_perm fs a).length_eq]
  exact List.filter_sublist.length_le

/-- Turns are in walk order. -/
theorem pairwise_turnsOf (fs : List Frame) (a : AccountId) :
    (turnsOf fs a).Pairwise Frame.WalksBefore :=
  (Sorting.pairwise_isLE_sortBy Frame.sequenceOrder _).imp Frame.isLE_sequenceOrder_iff.1

/-- Among all transactions by number and hash, those of an account stand in its turns. -/
theorem filter_source_sortBy (fs : List Frame) (a : AccountId) :
    (Sorting.sortBy (fun f g => f.sequenceOrder g != .gt) fs).filter (fun f => f.source == a) =
      turnsOf fs a :=
  Sorting.filter_sortBy_cmp Frame.sequenceOrder _ fs

/-! ### Turns and walks -/

/-- Two lists in walk order with the same members have the same numbers and full hashes, place by
place, whatever collides. -/
theorem map_number_and_hash_eq_of_walkOrder {fs gs : List Frame}
    (hf : fs.Pairwise Frame.WalksBefore) (hg : gs.Pairwise Frame.WalksBefore) (h : fs.Perm gs) :
    fs.map (fun f => (f.sequence, f.fullHash)) = gs.map fun f => (f.sequence, f.fullHash) := by
  have hpairs : ∀ hs : List Frame, hs.Pairwise Frame.WalksBefore →
      (hs.map fun f => (f.sequence, f.fullHash)).Pairwise
        fun p q => p.1 ≤ q.1 ∧ (q.1 ≤ p.1 → p.2 ≤ q.2) := fun _ h => List.pairwise_map.2 h
  refine List.Perm.eq_of_pairwise (fun p q _ _ hpq hqp => ?_) (hpairs fs hf) (hpairs gs hg)
    (h.map _)
  exact Prod.ext (Std.le_antisymm hpq.1 hqp.1)
    (Std.le_antisymm (hpq.2 hqp.1) (hqp.2 hpq.1))

/-- **The walk takes the turns.** What a walk over a set in canonical order visits of an account has
the numbers and full hashes of its turns. -/
theorem map_number_and_hash_turnsOf (fs : List Frame) (a : AccountId) :
    (turnsOf fs a).map (fun f => (f.sequence, f.fullHash)) =
      (groupOf (canonicalOrder fs) a).map fun f => (f.sequence, f.fullHash) := by
  refine map_number_and_hash_eq_of_walkOrder (pairwise_turnsOf fs a)
    (pairwise_groupOf (canonical_canonicalOrder fs) a) ?_
  exact (turnsOf_perm fs a).trans
    (((canonicalOrder_perm fs).filter _).symm.trans (groupOf_perm _ a).symm)

theorem map_fullHash_turnsOf (fs : List Frame) (a : AccountId) :
    (turnsOf fs a).map Frame.fullHash = (groupOf (canonicalOrder fs) a).map Frame.fullHash := by
  simpa only [List.map_map, Function.comp_def] using
    congrArg (List.map Prod.snd) (map_number_and_hash_turnsOf fs a)

theorem map_sequence_turnsOf {fs : List Frame} (hs : Canonical fs) (a : AccountId) :
    (turnsOf fs a).map Frame.sequence = (groupOf fs a).map Frame.sequence := by
  have h := map_number_and_hash_turnsOf fs a
  rw [canonicalOrder_of_canonical hs] at h
  simpa only [List.map_map, Function.comp_def] using congrArg (List.map Prod.fst) h

/-- Where full hashes tell transactions apart, what a walk visits of an account are its turns. -/
theorem turnsOf_eq_groupOf {fs : List Frame} (hcoll : NoCollision fs) (hs : Canonical fs)
    (a : AccountId) : turnsOf fs a = groupOf fs a :=
  eq_of_perm_of_walkOrder (hcoll.subset fun _ hf => (mem_turnsOf.1 hf).1) (pairwise_turnsOf fs a)
    (pairwise_groupOf hs a) ((turnsOf_perm fs a).trans (groupOf_perm fs a).symm)

end NextLedger
