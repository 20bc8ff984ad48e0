import NextLedger.Proofs.Surge.Capacity
import NextLedger.Proofs.Walk.Acceptance

/-!
# Surge pricing keeps a valid set valid

A ranking keeps the turns of each account, and what is kept of a class is cut off the top of its
ranking. So what surge pricing leaves of an account is a **prefix** of its turns
(`turnsOf_surge_prefix`): an account loses its last turns first.

Where a walk finds nothing, it finds nothing along prefixes either (`findings_eq_nil_of_prefix`).
Their numbers run on without gaps from the same start, and fewer transactions do not cost more, even
where the sum of the fees is clamped. Removals keep canonical order, so a set that passes its walk
is left as one that does (`surge_keeps_valid`).
-/

namespace NextLedger

/-! ### Walking along prefixes -/

section Prefix

variable {view : LedgerView Unit} {policy : Policy} {exempt : Bool} {fs gs : List Frame}

theorem Tally.totalFee_le_addAll (t : Tally) (exempt : Bool) (fs : List Frame) :
    t.totalFee ≤ (t.addAll exempt fs).totalFee := by
  induction fs generalizing t with
  | nil => exact Int64.le_refl _
  | cons f fs ih =>
    have hadd : t.totalFee ≤ (t.add exempt f).totalFee := by
      cases exempt with
      | true => exact Int64.le_refl _
      | false =>
        refine Amount.le_addClamped ?_
        rw [Frame.toInt_fee]
        exact Int.natCast_nonneg _
    exact Int64.le_trans hadd (ih (t.add exempt f))

/-- Along a prefix of transactions that are all valid where they stand, all are valid. -/
theorem rejections_eq_nil_of_prefix {last : SequenceNumber} (hpre : fs <+: gs)
    (h : rejections view exempt last gs = []) : rejections view exempt last fs = [] := by
  induction fs generalizing gs last with
  | nil => rfl
  | cons f fs ih =>
    obtain ⟨rest, rfl⟩ := hpre
    have hvalid : f.verdict view exempt last = .valid := by
      by_contra hne
      exact rejections_cons_ne_nil hne h
    rw [List.cons_append, rejections_cons_of_valid hvalid] at h
    rw [rejections_cons_of_valid hvalid]
    exact ih (List.prefix_append fs rest) h

/-- An account that can pay for its transactions can pay for a prefix of them. -/
theorem settlement_eq_nil_of_prefix {a : AccountId} {group group' : List Frame}
    (hpre : fs <+: gs) (h : settlement view a group (Tally.start.addAll exempt gs) = []) :
    settlement view a group' (Tally.start.addAll exempt fs) = [] := by
  obtain ⟨rest, rfl⟩ := hpre
  have hfee : (Tally.start.addAll exempt fs).totalFee ≤
      (Tally.start.addAll exempt (fs ++ rest)).totalFee := by
    rw [Tally.addAll, Tally.addAll, List.foldl_append]
    exact Tally.totalFee_le_addAll _ exempt rest
  cases hfs : fs.getLast? with
  | none => simp [settlement, Tally.lastValid_addAll, Tally.start, hfs]
  | some last =>
    obtain ⟨last', hlast'⟩ : ∃ last', (fs ++ rest).getLast? = some last' := by
      rw [List.getLast?_append, hfs]
      cases rest.getLast? with
      | none => exact ⟨last, rfl⟩
      | some last' => exact ⟨last', rfl⟩
    simp only [settlement, Tally.lastValid_addAll, hfs, hlast', Option.some_or] at h ⊢
    cases hload : (view.load a ()).1 with
    | error fault => rfl
    | ok entry =>
      simp only [hload] at h ⊢
      cases hminimum : view.header.minimumBalance? entry.subEntries with
      | none => simp [hminimum] at h
      | some minimum =>
        simp only [hminimum, ite_eq_left_iff, List.cons_ne_nil, imp_false, not_not] at h ⊢
        exact Int64.le_trans h (Amount.subClamped_le_subClamped entry.balance hfee)

/-- **Prefixes of a valid set are valid.** Where a walk finds nothing, it finds nothing in
transactions of which each account's are a prefix. -/
theorem findings_eq_nil_of_prefix (hpre : ∀ a, groupOf fs a <+: groupOf gs a)
    (h : findings view policy gs = []) : findings view policy fs = [] := by
  refine List.flatMap_eq_nil_iff.2 fun a ha => ?_
  obtain ⟨f, hf, hfa⟩ := mem_sources.1 ha
  have hmem : f ∈ groupOf gs a := (hpre a).subset (mem_groupOf.2 ⟨hf, hfa⟩)
  have haccount := List.flatMap_eq_nil_iff.1 h a (mem_sources.2 ⟨f, mem_groupOf.1 hmem⟩)
  obtain ⟨hnone, hpays⟩ := List.append_eq_nil_iff.1 haccount
  have hnone' := rejections_eq_nil_of_prefix (hpre a) hnone
  rw [finalTally, accepted_of_rejections_eq_nil hnone] at hpays
  rw [accountFindings, hnone', List.nil_append, finalTally, accepted_of_rejections_eq_nil hnone']
  exact settlement_eq_nil_of_prefix (hpre a) hpays

end Prefix

namespace TxSet

/-! ### What is left of an account -/

section Account

variable {σ : Type} {s : TxSet} {view : LedgerView σ} {policy : Policy}

/-- An account's transactions are all in its class. -/
theorem filter_source_filter_class (fs : List Frame) (policy : Policy) (a : AccountId) :
    (fs.filter fun f => policy.isPrivileged f.source == policy.isPrivileged a).filter
        (fun f => f.source == a) = fs.filter fun f => f.source == a := by
  rw [List.filter_filter]
  refine List.filter_congr fun f _ => ?_
  by_cases hfa : f.source = a <;> simp [hfa]

/-- In the ranking of its class an account's transactions stand in its turns. -/
theorem filter_source_ranking (s : TxSet) (view : LedgerView σ) (policy : Policy) (a : AccountId) :
    (s.ranking view policy (policy.isPrivileged a)).filter (fun f => f.source == a) =
      turnsOf s.transactions a := by
  have hpart : (s.part policy (policy.isPrivileged a)).filter (fun f => f.source == a) =
      s.transactions.filter fun f => f.source == a := filter_source_filter_class _ policy a
  rw [ranking, Priority.filter_source_sort, turnsOf, hpart, turnsOf]

/-- What is kept of an account is a prefix of its turns. -/
theorem filter_source_kept_prefix (s : TxSet) (view : LedgerView σ) (policy : Policy)
    (a : AccountId) :
    (s.kept view policy).filter (fun f => f.source == a) <+: turnsOf s.transactions a := by
  have hclass : (s.kept view policy).filter (fun f => f.source == a) =
      (s.keptOf view policy (policy.isPrivileged a)).filter fun f => f.source == a := by
    rw [← filter_kept, filter_source_filter_class]
  rw [hclass, keptOf, ← filter_source_ranking s view policy a]
  exact (List.take_prefix _ _).filter _

/-- Where full hashes tell transactions apart, what is left is what is kept. -/
theorem transactions_surge_perm (h : view.maxSetSize < s.size)
    (hcoll : NoCollision s.transactions) :
    (s.surge view policy).2.transactions.Perm (s.kept view policy) := by
  have hperm : ((s.surge view policy).2.transactions.map id).Perm ((s.kept view policy).map id) :=
    map_surge_perm h hcoll
  rwa [List.map_id, List.map_id] at hperm

/-- **An account loses its last turns first.** What surge pricing leaves of its transactions is a
prefix of its turns. -/
theorem turnsOf_surge_prefix (hcoll : NoCollision s.transactions) (view : LedgerView σ)
    (policy : Policy) (a : AccountId) :
    turnsOf (s.surge view policy).2.transactions a <+: turnsOf s.transactions a := by
  rcases Nat.lt_or_ge view.maxSetSize s.size with h | h
  · have hpre := filter_source_kept_prefix s view policy a
    have hperm := (turnsOf_perm (s.surge view policy).2.transactions a).trans
      ((transactions_surge_perm h hcoll).filter _)
    have hsub := (surge_sublist s view policy).subset
    -- Both are in walk order, one as the turns of an account and one as a prefix of turns.
    rw [eq_of_perm_of_walkOrder (hcoll.subset fun f hf => hsub (mem_turnsOf.1 hf).1)
      (pairwise_turnsOf _ a) ((pairwise_turnsOf s.transactions a).sublist hpre.sublist) hperm]
    exact hpre
  · rw [surge_of_le h]

end Account

/-! ### A valid set -/

/-- **Surge pricing keeps a valid set valid.** If a strict walk of a set passes over a ledger with
fixed answers, under any policy, then surge pricing leaves a set in canonical order that holds a
prefix of every account's turns, and a strict walk of which passes. Under a whitelist the set left
passes its check, as long as it is built on the last closed ledger. -/
theorem surge_keeps_valid (s : TxSet) (closed : ClosedLedger)
    (load : AccountId → Except StoreFault AccountEntry) (policy : Policy) (network : Hash256)
    (hnetwork : ∀ f ∈ s.transactions, f.network = network)
    (hcoll : ∀ f ∈ s.transactions, ∀ g ∈ s.transactions,
      f.fullHash = g.fullHash → f.envelope = g.envelope)
    (hvalid : (s.walk (.fixed closed load) policy .strict () ()).1 = .ok ()) :
    let left := (s.surge (.fixed closed load) policy).2
    Canonical left.transactions ∧
    (∀ a, turnsOf left.transactions a <+: turnsOf s.transactions a) ∧
    (left.walk (.fixed closed load) policy .strict () ()).1 = .ok () ∧
    ∀ w : Whitelist, policy = w.toPolicy → s.previous = closed.hash →
      (left.check (.fixed closed load) policy ()).1 = .ok () := by
  intro left
  have hs : Canonical s.transactions := canonical_of_walk_eq_ok hvalid
  have hdistinct : NoCollision s.transactions := noCollision_of_network hnetwork hcoll
  have hsub : left.transactions.Sublist s.transactions := surge_sublist s _ policy
  have hleft : Canonical left.transactions := hs.sublist hsub
  have hpre : ∀ a, turnsOf left.transactions a <+: turnsOf s.transactions a :=
    turnsOf_surge_prefix hdistinct _ policy
  have hgroups : ∀ a, groupOf left.transactions a <+: groupOf s.transactions a := fun a => by
    rw [← turnsOf_eq_groupOf hdistinct hs,
      ← turnsOf_eq_groupOf (hdistinct.subset hsub.subset) hleft]
    exact hpre a
  have hnone : findings (.fixed closed load) policy left.transactions = [] :=
    findings_eq_nil_of_prefix hgroups ((walk_strict_eq_ok_iff hs).1 hvalid)
  refine ⟨hleft, hpre, (walk_strict_eq_ok_iff hleft).2 hnone, ?_⟩
  rintro w rfl hprevious
  refine check_eq_ok_iff_findings.2 ⟨?_, ?_, hleft, hnone⟩
  · rw [previous_surge, hprevious]
    rfl
  · exact size_surge_le s _ w.toPolicy (w.reserve_le _)

end TxSet

set_option maxRecDepth 100000 in
/-- The case of two valid transactions of one account and one place: the first of them is left, and
passes its check. -/
theorem TxSet.valid_of_agreed_cut :
    let left := (Sample.agreed.surge (.fixed (Sample.closed 1) Sample.ledger.load)
      Whitelist.disabled.toPolicy).2
    left.size = 1 ∧
    turnsOf left.transactions Sample.entry.id <+:
      turnsOf Sample.agreed.transactions Sample.entry.id ∧
    (left.check (.fixed (Sample.closed 1) Sample.ledger.load)
      Whitelist.disabled.toPolicy ()).1 = .ok () := by
  obtain ⟨-, hpre, -, hcheck⟩ := surge_keeps_valid Sample.agreed (Sample.closed 1)
    Sample.ledger.load Whitelist.disabled.toPolicy .zero (by decide) (by decide +kernel)
    (by decide +kernel)
  refine ⟨?_, hpre Sample.entry.id, hcheck .disabled rfl rfl⟩
  exact (size_surge_of_lt (by decide)).trans (by decide)

end NextLedger
