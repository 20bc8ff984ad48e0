import NextLedger.Proofs.Turns
import NextLedger.Proofs.Walk.Acceptance

/-!
# Apply order in rounds

A set is applied in **rounds**. Every account that has turns left takes one in each: round `i` is
made of the `i`-th turns of the accounts (`filter_source_rounds`), so an account has at most one
transaction in a round, and one that sits out a round takes no part in the later ones. Within a
round the order is that of the full hashes under the mask.

All rounds together hold every transaction once, and an account's transactions stand among them in
its turns (`filter_source_applyOrder`). That is the order in which a walk visits them. In a set that
passes its check the turns have the account's next numbers, so the transaction in round `i` is the
one numbered `i + 1` after the number in the ledger.
-/

namespace NextLedger

/-! ### Ranks -/

/-- A transaction's rank is less than the number of transactions before and with it. -/
theorem rank_lt_of_mem_ranked {before : List AccountId} {fs : List Frame} {p : Nat × Frame}
    (hp : p ∈ ranked before fs) : p.1 < before.length + fs.length := by
  induction fs generalizing before with
  | nil => simp [ranked] at hp
  | cons f fs ih =>
    rcases List.mem_cons.1 hp with rfl | hp
    · have hcount := List.count_le_length (a := f.source) (l := before)
      simp only [List.length_cons]
      omega
    · have hlt := ih hp
      simp only [List.length_cons] at hlt ⊢
      omega

@[simp] theorem map_snd_ranked (before : List AccountId) (fs : List Frame) :
    (ranked before fs).map (·.2) = fs := by
  induction fs generalizing before with
  | nil => rfl
  | cons f fs ih => rw [ranked, List.map_cons, ih]

/-- Of an account, the transaction of rank `i` is the one at place `i`, counted from those that came
before. -/
theorem filter_source_ranked (before : List AccountId) (fs : List Frame) (a : AccountId) (i : Nat) :
    (((ranked before fs).filter fun p => p.1 == i).map (·.2)).filter (fun f => f.source == a) =
      if i < before.count a then []
      else ((fs.filter fun f => f.source == a)[i - before.count a]?).toList := by
  induction fs generalizing before with
  | nil => simp [ranked]
  | cons f fs ih =>
    have htail := ih (f.source :: before)
    rw [ranked, List.filter_cons]
    by_cases hfa : f.source = a
    · -- The head is the next one of the account: it has the rank, or it counts for what follows.
      subst hfa
      rw [List.count_cons_self] at htail
      rcases Nat.lt_trichotomy i (before.count f.source) with hlt | heq | hgt
      · simp [htail, hlt, Nat.lt_succ_of_lt hlt, hlt.ne']
      · rw [heq] at htail ⊢
        simp only [beq_self_eq_true, if_true, List.map_cons, List.filter_cons, htail,
          Nat.lt_succ_self, Nat.lt_irrefl, if_false, Nat.sub_self, List.getElem?_cons_zero,
          Option.toList_some]
      · obtain ⟨k, rfl⟩ := Nat.exists_eq_add_of_lt hgt
        have hplace : before.count f.source + k + 1 - before.count f.source = k + 1 := by omega
        have hrest : before.count f.source + k + 1 - (before.count f.source + 1) = k := by omega
        have hrank : ¬ ((before.count f.source, f).1 == before.count f.source + k + 1) = true := by
          simp
          omega
        rw [hrest, if_neg (by omega)] at htail
        rw [if_neg hrank, htail, if_neg (by omega), hplace, List.filter_cons_of_pos (by simp),
          List.getElem?_cons_succ]
    · have hcount : (f.source :: before).count a = before.count a :=
        List.count_cons_of_ne hfa
      rw [hcount] at htail
      split
      · simp [htail, hfa]
      · simp [htail, hfa]

/-! ### Rounds -/

/-- Picking out each key below a bound in turn picks out all with a key below it. -/
theorem flatMap_range_filter_perm {α : Type} (key : α → Nat) (xs : List α) (n : Nat) :
    ((List.range n).flatMap fun i => xs.filter fun x => key x == i).Perm
      (xs.filter fun x => decide (key x < n)) := by
  induction n with
  | zero => simp
  | succ n ih =>
    rw [List.range_succ, List.flatMap_append, List.flatMap_singleton]
    have hsplit := List.filter_append_perm (fun x => decide (key x < n))
      (xs.filter fun x => decide (key x < n + 1))
    rw [List.filter_filter, List.filter_filter] at hsplit
    refine (ih.append_right _).trans (.trans (.of_eq ?_) hsplit)
    congr 1
    · exact List.filter_congr fun x _ => by
        rw [Bool.eq_iff_iff]
        simp
        omega
    · exact List.filter_congr fun x _ => by
        rw [Bool.eq_iff_iff]
        simp
        omega

/-- The rounds together hold every transaction once. -/
theorem flatten_rounds_perm (fs : List Frame) : (rounds fs).flatten.Perm fs := by
  set sorted := Sorting.sortBy (fun f g => f.sequenceOrder g != .gt) fs with hsorted
  have hlength : sorted.length = fs.length := Sorting.length_sortBy _ fs
  have hall : (ranked [] sorted).filter (fun p => decide (p.1 < fs.length)) = ranked [] sorted :=
    List.filter_eq_self.2 fun p hp => by
      have hlt := rank_lt_of_mem_ranked hp
      rw [hlength, List.length_nil, Nat.zero_add] at hlt
      exact decide_eq_true hlt
  have hranks := (flatMap_range_filter_perm (·.1) (ranked [] sorted) fs.length).map (·.2)
  rw [hall, map_snd_ranked, List.map_flatMap] at hranks
  rw [rounds, ← hsorted, ← List.flatMap_def]
  exact hranks.trans (Sorting.sortBy_perm _ fs)

/-- The rounds of some transactions, each in its order under the mask. -/
def maskedRounds (mask : Hash256) (fs : List Frame) : List (List Frame) :=
  (rounds fs).map
    (Sorting.sortBy fun f g => Hash256.orderMasked mask f.fullHash g.fullHash != .gt)

theorem applyOrder_eq_flatten (mask : Hash256) (fs : List Frame) :
    applyOrder mask fs = (maskedRounds mask fs).flatten := rfl

/-- A round ascends by its full hashes under the mask. -/
theorem pairwise_of_mem_maskedRounds {mask : Hash256} {fs r : List Frame}
    (hr : r ∈ maskedRounds mask fs) :
    r.Pairwise fun f g => f.fullHash.xor mask ≤ g.fullHash.xor mask := by
  obtain ⟨round, -, rfl⟩ := List.mem_map.1 hr
  rw [Hash256.orderMasked_eq_compareBy]
  exact (Sorting.pairwise_isLE_sortBy (compareBy fun f : Frame => f.fullHash.xor mask) round).imp
    isLE_compareBy_iff.1

/-- Picking out some transactions of a round keeps their order under the mask. -/
theorem filter_sortBy_orderMasked (mask : Hash256) (p : Frame → Bool) (fs : List Frame) :
    (Sorting.sortBy (fun f g : Frame =>
      Hash256.orderMasked mask f.fullHash g.fullHash != .gt) fs).filter p =
    Sorting.sortBy (fun f g => Hash256.orderMasked mask f.fullHash g.fullHash != .gt)
      (fs.filter p) := by
  have hkey : (fun f g : Frame => Hash256.orderMasked mask f.fullHash g.fullHash) =
      compareBy fun f => f.fullHash.xor mask := by
    rw [Hash256.orderMasked_eq_compareBy]
    rfl
  have : Std.TransCmp fun f g : Frame => Hash256.orderMasked mask f.fullHash g.fullHash :=
    hkey ▸ inferInstance
  exact Sorting.filter_sortBy_cmp _ p fs

/-- **Rounds take turns.** Of an account, round `i` holds the `i`-th turn, if it has so many. -/
theorem filter_source_maskedRounds (mask : Hash256) (fs : List Frame) (a : AccountId) (i : Nat) :
    ((maskedRounds mask fs).getD i []).filter (fun f => f.source == a) =
      (turnsOf fs a)[i]?.toList := by
  have hround := filter_source_ranked []
    (Sorting.sortBy (fun f g => f.sequenceOrder g != .gt) fs) a i
  rw [filter_source_sortBy, List.count_nil, if_neg (Nat.not_lt_zero i), Nat.sub_zero] at hround
  rcases Nat.lt_or_ge i fs.length with hi | hi
  · have hsort : (Sorting.sortBy (fun f g : Frame =>
        Hash256.orderMasked mask f.fullHash g.fullHash != .gt) (turnsOf fs a)[i]?.toList) =
        (turnsOf fs a)[i]?.toList := by
      cases (turnsOf fs a)[i]? <;> rfl
    rw [maskedRounds, rounds, List.map_map, List.getD_eq_getElem _ _ (by simpa using hi),
      List.getElem_map, List.getElem_range, Function.comp, filter_sortBy_orderMasked, hround, hsort]
  · -- There are as many rounds as transactions, and no account has more turns.
    have hturns : (turnsOf fs a)[i]? = none :=
      List.getElem?_eq_none ((length_turnsOf_le fs a).trans hi)
    rw [hturns, List.getD_eq_default]
    · rfl
    · simpa [maskedRounds, rounds] using hi

theorem mem_map_source_maskedRounds {mask : Hash256} {fs : List Frame} {a : AccountId} {i : Nat} :
    a ∈ ((maskedRounds mask fs).getD i []).map Frame.source ↔ i < (turnsOf fs a).length := by
  have hmem : ∀ r : List Frame, a ∈ r.map Frame.source ↔ r.filter (fun f => f.source == a) ≠ [] :=
    fun r => by simp [List.filter_eq_nil_iff]
  rw [hmem, filter_source_maskedRounds]
  cases hturn : (turnsOf fs a)[i]? with
  | none => simpa using hturn
  | some f => simpa using (List.getElem?_eq_some_iff.1 hturn).1

/-- Whether some lists are the **rounds** of transactions under a mask. -/
structure InRounds (mask : Hash256) (fs : List Frame) (rs : List (List Frame)) : Prop where
  /-- Round `i` holds the `i`-th turn of every account that has so many, and no more. -/
  turns : ∀ i a, (rs.getD i []).filter (fun f => f.source == a) = (turnsOf fs a)[i]?.toList
  /-- No account occurs twice in a round. -/
  nodup : ∀ r ∈ rs, (r.map Frame.source).Nodup
  /-- The accounts of a round took part in the round before. -/
  shrinking : ∀ i, (rs.getD (i + 1) []).map Frame.source ⊆ (rs.getD i []).map Frame.source
  ascending : ∀ r ∈ rs, r.Pairwise fun f g => f.fullHash.xor mask ≤ g.fullHash.xor mask

theorem inRounds_maskedRounds (mask : Hash256) (fs : List Frame) :
    InRounds mask fs (maskedRounds mask fs) where
  turns i a := filter_source_maskedRounds mask fs a i
  nodup r hr := by
    obtain ⟨i, hi, rfl⟩ := List.getElem_of_mem hr
    refine List.nodup_iff_count_le_one.2 fun a => ?_
    have hround := congrArg List.length (filter_source_maskedRounds mask fs a i)
    rw [List.getD_eq_getElem _ _ hi] at hround
    rw [List.count, List.countP_map, List.countP_eq_length_filter]
    refine le_trans (le_of_eq hround) ?_
    cases (turnsOf fs a)[i]? <;> simp
  shrinking i a ha := by
    rw [mem_map_source_maskedRounds] at *
    omega
  ascending _ hr := pairwise_of_mem_maskedRounds hr

/-- The rounds in a row are a permutation of the transactions. -/
theorem applyOrder_perm (mask : Hash256) (fs : List Frame) : (applyOrder mask fs).Perm fs := by
  refine List.Perm.trans ?_ (flatten_rounds_perm fs)
  rw [applyOrder, ← List.flatMap_id]
  exact List.Perm.flatMap_left _ fun r _ => Sorting.sortBy_perm _ r

/-- **An account is served in its turns.** -/
theorem filter_source_applyOrder (mask : Hash256) (fs : List Frame) (a : AccountId) :
    (applyOrder mask fs).filter (fun f => f.source == a) = turnsOf fs a := by
  have hparts : (maskedRounds mask fs).map (List.filter fun f => f.source == a) =
      (List.range fs.length).map fun i => (turnsOf fs a)[i]?.toList := by
    refine List.ext_getElem (by simp [maskedRounds, rounds]) fun i hi _ => ?_
    have hround := filter_source_maskedRounds mask fs a i
    rw [List.length_map] at hi
    rw [List.getD_eq_getElem _ _ hi] at hround
    rw [List.getElem_map, List.getElem_map, List.getElem_range, hround]
  have htake : ∀ n, (List.range n).flatMap (fun i => (turnsOf fs a)[i]?.toList) =
      (turnsOf fs a).take n := fun n => by
    induction n with
    | zero => rfl
    | succ n ih =>
      rw [List.range_succ, List.flatMap_append, ih, List.flatMap_singleton, List.take_add_one]
  rw [applyOrder_eq_flatten, List.filter_flatten, hparts, ← List.flatMap_def, htake,
    List.take_of_length_le (length_turnsOf_le fs a)]

/-! ### Turns in an accepted set -/

/-- In a set in which a walk finds nothing, the `i`-th turn of an account has the number `i + 1`
after the one in the ledger. -/
theorem sequence_of_turn {fs : List Frame} {ledger : LedgerState} {policy : Policy}
    {a : AccountId} {i : Nat} {f : Frame}
    (hsequence : ∀ a entry, ledger.load a = .ok entry → 0 ≤ entry.sequence.toInt)
    (hs : Canonical fs) (hnone : findings (.ofState ledger) policy fs = [])
    (hturn : (turnsOf fs a)[i]? = some f) :
    ∃ entry, ledger.load a = .ok entry ∧ f.sequence.toInt = entry.sequence.toInt + i + 1 := by
  obtain ⟨hi, hget⟩ := List.getElem?_eq_some_iff.1 hturn
  have ha : a ∈ sources fs :=
    mem_sources.2 ⟨f, mem_turnsOf.1 (hget ▸ List.getElem_mem hi)⟩
  have haccount := List.flatMap_eq_nil_iff.1 hnone a ha
  obtain ⟨entry, hload⟩ := exists_load_of_accountFindings_eq_nil ha haccount
  refine ⟨entry, hload, ?_⟩
  have hcurrent : entry.current 0 = entry.sequence.toInt := by simp [AccountEntry.current]
  have hnumbers := map_sequence_of_rejections_eq_nil hload (fun g hg => (mem_groupOf.1 hg).2)
    (by rw [hcurrent]; exact hsequence a entry hload) (List.append_eq_nil_iff.1 haccount).1
  -- What the walk visits has the numbers of the turns, place by place.
  have hturns := congrArg (List.map Int64.toInt) (map_sequence_turnsOf hs a)
  rw [List.map_map, List.map_map, Function.comp_def, hnumbers] at hturns
  have hlength : i < (groupOf fs a).length := by
    have hlength := congrArg List.length hturns
    simp only [List.length_map, numbersAfter, List.length_range] at hlength
    omega
  have hplace := congrArg (·[i]?) hturns
  simp only [List.getElem?_map, hturn, numbersAfter, List.getElem?_range hlength, Option.map_some,
    hcurrent, Option.some.injEq] at hplace
  omega

/-! ### Apply order -/

/-- **Apply order runs in rounds.** For every mask, the order in which transactions are applied is
that of their rounds, one after the other, and holds each transaction once. An account's
transactions stand in it in the order in which a walk over the transactions in canonical order
visits them. In a set that a check accepts over a ledger without negative sequence numbers, what an
account has in round `i` is numbered `i + 1` after its number in the ledger. -/
theorem applyOrder_in_rounds (mask : Hash256) (fs : List Frame) :
    ∃ rs, InRounds mask fs rs ∧ applyOrder mask fs = rs.flatten ∧
      (applyOrder mask fs).Perm fs ∧
      (∀ a, ((applyOrder mask fs).filter fun f => f.source == a).map Frame.fullHash =
        (groupOf (canonicalOrder fs) a).map Frame.fullHash) ∧
      ∀ (s : TxSet) (ledger : LedgerState) (policy : Policy), s.transactions = fs →
        (∀ a entry, ledger.load a = .ok entry → 0 ≤ entry.sequence.toInt) →
        (s.check (.ofState ledger) policy ()).1 = .ok () →
        ∀ i, ∀ f ∈ rs.getD i [], ∃ entry, ledger.load f.source = .ok entry ∧
          f.sequence.toInt = entry.sequence.toInt + i + 1 := by
  refine ⟨maskedRounds mask fs, inRounds_maskedRounds mask fs, applyOrder_eq_flatten mask fs,
    applyOrder_perm mask fs, fun a => ?_, ?_⟩
  · rw [filter_source_applyOrder, map_fullHash_turnsOf]
  · rintro s ledger policy rfl hsequence hcheck i f hf
    obtain ⟨-, -, hs, hnone⟩ := TxSet.check_eq_ok_iff_findings.1 hcheck
    refine sequence_of_turn hsequence hs hnone (Option.mem_toList.1 ?_)
    rw [← filter_source_maskedRounds mask]
    exact List.mem_filter.2 ⟨hf, beq_self_eq_true f.source⟩

set_option maxRecDepth 100000 in
/-- The case of an accepted set in which full hashes ascend against the numbers. -/
theorem rounds_of_agreed :
    ∃ rs, InRounds .zero Sample.agreed.transactions rs ∧
      ∀ i, ∀ f ∈ rs.getD i [], ∃ entry, Sample.ledger.load f.source = .ok entry ∧
        f.sequence.toInt = entry.sequence.toInt + i + 1 := by
  obtain ⟨rs, hrounds, -, -, -, haccepted⟩ :=
    applyOrder_in_rounds .zero Sample.agreed.transactions
  exact ⟨rs, hrounds, haccepted Sample.agreed Sample.ledger Whitelist.disabled.toPolicy rfl
    Sample.sequence_nonneg (by decide +kernel)⟩

end NextLedger
