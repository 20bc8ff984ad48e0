import NextLedger.Proofs.Affordability
import NextLedger.Proofs.Walk.Trimming

/-!
# What a check accepts

A set passes its check exactly if it is **acceptable** (`check_eq_ok_iff`): it is built on the last
closed ledger, is within capacity, ascends by full hash, and each of its accounts **takes** its
transactions. The last is said without a walk. The numbers of the transactions are the next ones of
the account, each once; every transaction is sound; and the balance covers the fees and what the
account has to keep. All numbers are exact integers.

A walk along a group that is sorted by number meets no violation exactly if the numbers form a run
without gaps (`rejections_eq_nil_iff`).
-/

namespace NextLedger

/-! ### Runs of numbers -/

/-- The next `k` numbers after `n`. -/
def numbersAfter (n : Int) (k : Nat) : List Int := (List.range k).map fun i : Nat => n + 1 + i

theorem numbersAfter_succ (n : Int) (k : Nat) :
    numbersAfter n (k + 1) = (n + 1) :: numbersAfter (n + 1) k := by
  simp only [numbersAfter, List.range_succ_eq_map, List.map_cons, List.map_map]
  refine congrArg₂ _ (by simp) (List.map_congr_left fun i _ => ?_)
  simp only [Function.comp, Nat.cast_succ]
  omega

theorem pairwise_numbersAfter (n : Int) (k : Nat) : (numbersAfter n k).Pairwise (· ≤ ·) := by
  rw [numbersAfter, List.pairwise_map]
  refine List.pairwise_lt_range.imp fun h => ?_
  omega

/-! ### Along a group -/

section Run

variable {view : LedgerView Unit} {exempt : Bool} {last : SequenceNumber} {a : AccountId}
  {entry : AccountEntry} {fs : List Frame}

/-- Nothing is found along some transactions exactly if all are sound and their numbers run on
without gaps. -/
theorem rejections_eq_nil_iff (hload : (view.load a ()).1 = .ok entry)
    (hsource : ∀ f ∈ fs, f.source = a)
    (hfit : ∀ f ∈ fs, (view.header.minFee f.operationCount : Int) ≤ Amount.greatest)
    (hcurrent : 0 ≤ entry.current last) :
    rejections view exempt last fs = [] ↔
      (∀ f ∈ fs, f.Sound view.header exempt) ∧
        fs.map (fun f => f.sequence.toInt) = numbersAfter (entry.current last) fs.length := by
  induction fs generalizing last with
  | nil => simp [rejections, numbersAfter]
  | cons f fs ih =>
    obtain ⟨hfa, hsource⟩ := List.forall_mem_cons.1 hsource
    obtain ⟨hffit, hfit⟩ := List.forall_mem_cons.1 hfit
    have hstep := Frame.verdict_eq_valid_iff_of_load exempt last hload hfa hffit
    rw [List.length_cons, numbersAfter_succ, List.map_cons, List.cons.injEq, List.forall_mem_cons]
    by_cases hvalid : f.verdict view exempt last = .valid
    · obtain ⟨hsound, hnext⟩ := hstep.1 hvalid
      have hf : entry.current f.sequence = entry.current last + 1 := by
        rw [AccountEntry.current_of_pos (by omega), hnext]
      have htail := ih hsource hfit (show 0 ≤ entry.current f.sequence by omega)
      rw [rejections_cons_of_valid hvalid]
      simp only [htail, hf, hsound, hnext, true_and]
    · refine iff_of_false (rejections_cons_ne_nil hvalid) ?_
      rintro ⟨⟨hsound, -⟩, hnext, -⟩
      exact hvalid (hstep.2 ⟨hsound, hnext⟩)

/-- Where nothing is found along some transactions, their numbers run on without gaps, whatever
amounts fit. -/
theorem map_sequence_of_rejections_eq_nil (hload : (view.load a ()).1 = .ok entry)
    (hsource : ∀ f ∈ fs, f.source = a) (hcurrent : 0 ≤ entry.current last)
    (h : rejections view exempt last fs = []) :
    fs.map (fun f => f.sequence.toInt) = numbersAfter (entry.current last) fs.length := by
  induction fs generalizing last with
  | nil => simp [numbersAfter]
  | cons f fs ih =>
    obtain ⟨hfa, hsource⟩ := List.forall_mem_cons.1 hsource
    have hvalid : f.verdict view exempt last = .valid := by
      by_contra hvalid
      exact rejections_cons_ne_nil hvalid h
    have hnext := Frame.sequence_of_verdict_eq_valid hvalid (hfa ▸ hload)
    have hf : entry.current f.sequence = entry.current last + 1 := by
      rw [AccountEntry.current_of_pos (by omega), hnext]
    rw [rejections_cons_of_valid hvalid] at h
    rw [List.map_cons, List.length_cons, numbersAfter_succ, hnext, ih hsource (by omega) h, hf]

theorem accepted_of_rejections_eq_nil (h : rejections view exempt last fs = []) :
    accepted view exempt last fs = fs := by
  have hperm : (accepted view exempt last fs ++
      (rejections view exempt last fs).flatMap Finding.members).Perm fs :=
    accepted_append_rejections_perm (by simp [h])
  rw [h, List.flatMap_nil, List.append_nil] at hperm
  exact (accepted_sublist view exempt last fs).eq_of_length hperm.length_eq

end Run

/-! ### One account -/

/-- Whether an account takes some transactions of its own, all of them: their numbers are its next
ones, each once, they are sound, and it can pay for them. -/
structure AccountEntry.Takes (entry : AccountEntry) (header : LedgerHeader) (exempt : Bool)
    (fs : List Frame) : Prop where
  numbers : (fs.map fun f => f.sequence.toInt).Perm
    (numbersAfter entry.sequence.toInt fs.length)
  sound : ∀ f ∈ fs, f.Sound header exempt
  affords : entry.Affords header exempt fs

theorem AccountEntry.Takes.of_perm {entry : AccountEntry} {header : LedgerHeader} {exempt : Bool}
    {fs gs : List Frame} (hperm : fs.Perm gs) (h : entry.Takes header exempt fs) :
    entry.Takes header exempt gs where
  numbers := by
    rw [← hperm.length_eq]
    exact (hperm.map _).symm.trans h.numbers
  sound f hf := h.sound f (hperm.mem_iff.2 hf)
  affords := by
    rw [Affords, ← totalFees_perm hperm]
    exact h.affords

section Account

variable {view : LedgerView Unit} {policy : Policy} {fs : List Frame} {a : AccountId}

/-- An account without an entry has no transaction that is valid. -/
theorem exists_load_of_accountFindings_eq_nil (ha : a ∈ sources fs)
    (h : accountFindings view policy fs a = []) :
    ∃ entry, (view.load a ()).1 = .ok entry := by
  obtain ⟨f, hf, hfa⟩ := mem_sources.1 ha
  have haccepted := accepted_of_rejections_eq_nil (List.append_eq_nil_iff.1 h).1
  have hmem : f ∈ accepted view (policy.isPrivileged a) 0 (groupOf fs a) := by
    rw [haccepted]
    exact mem_groupOf.2 ⟨hf, hfa⟩
  obtain ⟨last, hvalid⟩ := exists_verdict_of_mem_accepted hmem
  rw [← hfa]
  exact exists_load_of_verdict hvalid

/-- Nothing is found at an account exactly if it takes all its transactions. -/
theorem accountFindings_eq_nil_iff {entry : AccountEntry} (hs : Canonical fs)
    (ha : a ∈ sources fs) (hload : (view.load a ()).1 = .ok entry)
    (hsequence : 0 ≤ entry.sequence.toInt)
    (hminFee : ∀ f ∈ fs, (view.header.minFee f.operationCount : Int) ≤ Amount.greatest)
    (hbalance : (view.header.minimumBalance entry.subEntries : Int) ≤ Amount.greatest)
    (hfees : (totalFees (groupOf fs a) : Int) ≤ Amount.greatest) :
    accountFindings view policy fs a = [] ↔
      entry.Takes view.header (policy.isPrivileged a) (groupOf fs a) := by
  have hcurrent : entry.current 0 = entry.sequence.toInt := by simp [AccountEntry.current]
  have hne : groupOf fs a ≠ [] := by
    obtain ⟨f, hf, hfa⟩ := mem_sources.1 ha
    exact List.ne_nil_of_mem (mem_groupOf.2 ⟨hf, hfa⟩)
  have hrejections : rejections view (policy.isPrivileged a) 0 (groupOf fs a) = [] ↔
      (∀ f ∈ groupOf fs a, f.Sound view.header (policy.isPrivileged a)) ∧
        (groupOf fs a).map (fun f => f.sequence.toInt) =
          numbersAfter (entry.current 0) (groupOf fs a).length :=
    rejections_eq_nil_iff hload (fun f hf => (mem_groupOf.1 hf).2)
      (fun f hf => hminFee f (mem_groupOf.1 hf).1) (by rw [hcurrent]; exact hsequence)
  rw [hcurrent] at hrejections
  -- The group is sorted by number, so its numbers are a run as soon as they are one up to order.
  have hnumbers : (groupOf fs a).map (fun f => f.sequence.toInt) =
        numbersAfter entry.sequence.toInt (groupOf fs a).length ↔
      ((groupOf fs a).map fun f => f.sequence.toInt).Perm
        (numbersAfter entry.sequence.toInt (groupOf fs a).length) := by
    refine ⟨fun h => h ▸ .refl _, fun h => ?_⟩
    refine List.Perm.eq_of_pairwise (fun m n _ _ hmn hnm => le_antisymm hmn hnm) ?_
      (pairwise_numbersAfter _ _) h
    rw [List.pairwise_map]
    exact (pairwise_groupOf hs a).imp fun h => Int64.le_iff_toInt_le.1 h.1
  rw [accountFindings, List.append_eq_nil_iff, finalTally]
  constructor
  · rintro ⟨hnone, hpays⟩
    rw [accepted_of_rejections_eq_nil hnone, settlement_eq_nil_iff_affords _ _ hload hbalance hfees]
      at hpays
    obtain ⟨hsound, hrun⟩ := hrejections.1 hnone
    exact ⟨hnumbers.1 hrun, hsound, hpays.resolve_left hne⟩
  · intro htakes
    have hnone := hrejections.2 ⟨htakes.sound, hnumbers.2 htakes.numbers⟩
    refine ⟨hnone, ?_⟩
    rw [accepted_of_rejections_eq_nil hnone, settlement_eq_nil_iff_affords _ _ hload hbalance hfees]
    exact .inr htakes.affords

end Account

/-! ### The set -/

namespace TxSet

/-- Whether a set can be applied on top of a ledger. -/
structure Acceptable (s : TxSet) (ledger : LedgerState) (policy : Policy) : Prop where
  previous : s.previous = ledger.lastClosed.hash
  size : s.transactions.length ≤ ledger.lastClosed.header.maxSetSize.toNat
  canonical : Canonical s.transactions
  accounts : ∀ f ∈ s.transactions, ∃ entry, ledger.load f.source = .ok entry ∧
    entry.Takes ledger.lastClosed.header (policy.isPrivileged f.source)
      (s.transactions.filter fun g => g.source == f.source)

/-- A walk of a set in canonical order finds nothing exactly if every account takes its
transactions. -/
theorem findings_eq_nil_iff {s : TxSet} {ledger : LedgerState} {policy : Policy}
    (hsequence : ∀ a entry, ledger.load a = .ok entry → 0 ≤ entry.sequence.toInt)
    (hfit : s.AmountsFit (.ofState ledger)) (hs : Canonical s.transactions) :
    findings (.ofState ledger) policy s.transactions = [] ↔
      ∀ f ∈ s.transactions, ∃ entry, ledger.load f.source = .ok entry ∧
        entry.Takes ledger.lastClosed.header (policy.isPrivileged f.source)
          (s.transactions.filter fun g => g.source == f.source) := by
  have hfees : ∀ a, (totalFees (groupOf s.transactions a) : Int) ≤ Amount.greatest := fun a => by
    rw [totalFees_perm (groupOf_perm _ a)]
    exact hfit.fees a
  have haccount : ∀ f ∈ s.transactions, ∀ entry, ledger.load f.source = .ok entry →
      (accountFindings (.ofState ledger) policy s.transactions f.source = [] ↔
        entry.Takes ledger.lastClosed.header (policy.isPrivileged f.source)
          (groupOf s.transactions f.source)) := fun f hf entry hload =>
    accountFindings_eq_nil_iff hs (mem_sources.2 ⟨f, hf, rfl⟩) hload (hsequence _ entry hload)
      hfit.minFee (hfit.minimumBalance f hf entry hload) (hfees f.source)
  rw [findings, List.flatMap_eq_nil_iff]
  constructor
  · intro hnone f hf
    have ha : f.source ∈ sources s.transactions := mem_sources.2 ⟨f, hf, rfl⟩
    obtain ⟨entry, hload⟩ := exists_load_of_accountFindings_eq_nil ha (hnone _ ha)
    exact ⟨entry, hload, .of_perm (groupOf_perm _ _)
      ((haccount f hf entry hload).1 (hnone _ ha))⟩
  · intro htakes a ha
    obtain ⟨f, hf, rfl⟩ := mem_sources.1 ha
    obtain ⟨entry, hload, htakes⟩ := htakes f hf
    exact (haccount f hf entry hload).2 (.of_perm (groupOf_perm _ _).symm htakes)

/-- **What a check accepts.** Over a ledger whose accounts have no negative sequence number, and as
long as the amounts about the set fit, a set passes its check exactly if it is acceptable. -/
theorem check_eq_ok_iff (s : TxSet) (ledger : LedgerState) (policy : Policy)
    (hsequence : ∀ a entry, ledger.load a = .ok entry → 0 ≤ entry.sequence.toInt)
    (hfit : s.AmountsFit (.ofState ledger)) :
    (s.check (.ofState ledger) policy ()).1 = .ok () ↔ s.Acceptable ledger policy := by
  rw [check_eq_ok_iff_findings]
  constructor
  · rintro ⟨hprevious, hsize, hs, hnone⟩
    exact ⟨hprevious.symm, hsize, hs, (findings_eq_nil_iff hsequence hfit hs).1 hnone⟩
  · rintro ⟨hprevious, hsize, hs, haccounts⟩
    exact ⟨hprevious.symm, hsize, hs, (findings_eq_nil_iff hsequence hfit hs).2 haccounts⟩

set_option maxRecDepth 100000 in
/-- The case of two transactions whose canonical order is not that of their numbers. -/
theorem acceptable_agreed : Sample.agreed.Acceptable Sample.ledger Whitelist.disabled.toPolicy :=
  (check_eq_ok_iff Sample.agreed Sample.ledger Whitelist.disabled.toPolicy
    Sample.sequence_nonneg Sample.amountsFit_agreed).1 (by decide +kernel)

end TxSet

end NextLedger
