import NextLedger.Proofs.Walk.Acceptance

/-!
# Runs of numbers without gaps

Of every account that trimming leaves in a set, the sequence numbers are the next ones after the
number in the ledger, each once; and so they are in every set that passes its check. This holds of
accounts with any number in the ledger **but −1** (`numbers_run_on`).

Along a walk zero stands for "no valid transaction yet", and negative numbers lead up to zero. From
below −1 a run may reach it. The walk then forgets the run and asks for its first number again, but
what is left to visit has passed that number, so the run just ends. From −1 zero is the first number
itself. It is asked for again and again, and every transaction numbered zero is valid, each copy of
one included (`zero_repeats`).
-/

namespace NextLedger

/-! ### Along a group -/

/-- A number that is not zero stands for itself. -/
theorem AccountEntry.current_of_ne_zero {entry : AccountEntry} {n : SequenceNumber} (hn : n ≠ 0) :
    entry.current n = n.toInt := by
  rw [current, if_neg hn]

/-- Zero stands for the number in the entry. -/
theorem AccountEntry.current_zero (entry : AccountEntry) :
    entry.current 0 = entry.sequence.toInt := by
  rw [current, if_pos rfl]

section Run

variable {view : LedgerView Unit} {exempt : Bool} {last : SequenceNumber} {a : AccountId}
  {entry : AccountEntry} {fs : List Frame}

/-- Nothing is accepted among transactions that have all passed the next number. -/
theorem accepted_eq_nil_of_lt (hload : (view.load a ()).1 = .ok entry)
    (hsource : ∀ f ∈ fs, f.source = a)
    (hlt : ∀ f ∈ fs, entry.current last + 1 < f.sequence.toInt) :
    accepted view exempt last fs = [] := by
  induction fs with
  | nil => rfl
  | cons f fs ih =>
    obtain ⟨hfa, hsource⟩ := List.forall_mem_cons.1 hsource
    obtain ⟨hf, hlt⟩ := List.forall_mem_cons.1 hlt
    have hinvalid : f.verdict view exempt last ≠ .valid := fun hvalid => by
      have hnext := Frame.sequence_of_verdict_eq_valid hvalid (hfa ▸ hload)
      omega
    rw [accepted_cons_of_ne_valid hinvalid]
    exact ih hsource hlt

/-- **The run of an account.** What is accepted of a group that is sorted by number has the next
numbers, each once, unless the number in the entry is −1. -/
theorem map_sequence_accepted (hload : (view.load a ()).1 = .ok entry)
    (hsource : ∀ f ∈ fs, f.source = a) (hsorted : fs.Pairwise fun f g => f.sequence ≤ g.sequence)
    (hentry : entry.sequence.toInt ≠ -1) (hcurrent : entry.sequence.toInt ≤ entry.current last) :
    (accepted view exempt last fs).map (fun f => f.sequence.toInt) =
      numbersAfter (entry.current last) (accepted view exempt last fs).length := by
  -- The run never falls behind the entry. This is what ends it once it has come to zero.
  induction fs generalizing last with
  | nil => simp [accepted, numbersAfter]
  | cons f fs ih =>
    obtain ⟨hfa, hsource⟩ := List.forall_mem_cons.1 hsource
    obtain ⟨hhead, hsorted⟩ := List.pairwise_cons.1 hsorted
    by_cases hvalid : f.verdict view exempt last = .valid
    · have hnext := Frame.sequence_of_verdict_eq_valid hvalid (hfa ▸ hload)
      rw [accepted_cons_of_valid hvalid, List.length_cons, numbersAfter_succ, List.map_cons, hnext]
      by_cases hzero : f.sequence = 0
      · have hend : accepted view exempt f.sequence fs = [] := by
          refine accepted_eq_nil_of_lt hload hsource fun g hg => ?_
          have hfg : (0 : SequenceNumber).toInt ≤ g.sequence.toInt :=
            Int64.le_iff_toInt_le.1 (hzero ▸ hhead g hg)
          rw [hzero, Int64.toInt_zero] at hnext
          rw [Int64.toInt_zero] at hfg
          rw [hzero, AccountEntry.current_zero]
          omega
        simp [hend, numbersAfter]
      · have hf : entry.current f.sequence = entry.current last + 1 := by
          rw [AccountEntry.current_of_ne_zero hzero, hnext]
        rw [ih hsource hsorted (by omega), hf]
    · rw [accepted_cons_of_ne_valid hvalid]
      exact ih hsource hsorted hcurrent

/-- After −1 only zero is accepted, and the walk stays where it began. -/
theorem sequence_eq_zero_of_mem_accepted (hload : (view.load a ()).1 = .ok entry)
    (hsource : ∀ f ∈ fs, f.source = a) (hentry : entry.sequence.toInt = -1) :
    ∀ f ∈ accepted view exempt 0 fs, f.sequence = 0 := by
  induction fs with
  | nil => simp [accepted]
  | cons f fs ih =>
    obtain ⟨hfa, hsource⟩ := List.forall_mem_cons.1 hsource
    by_cases hvalid : f.verdict view exempt 0 = .valid
    · have hnext := Frame.sequence_of_verdict_eq_valid hvalid (hfa ▸ hload)
      rw [AccountEntry.current_zero, hentry, neg_add_cancel, ← Int64.toInt_zero,
        Int64.toInt_inj] at hnext
      rw [accepted_cons_of_valid hvalid, hnext]
      exact List.forall_mem_cons.2 ⟨hnext, ih hsource⟩
    · rw [accepted_cons_of_ne_valid hvalid]
      exact ih hsource

end Run

/-! ### Numbers in a set -/

/-- Whether numbers are the next ones of an account, each once. -/
def AccountEntry.RunsOn (entry : AccountEntry) (numbers : List Int) : Prop :=
  numbers.Perm (numbersAfter entry.sequence.toInt numbers.length)

/-- The sequence numbers of an account's transactions in a set. -/
def TxSet.numbersOf (s : TxSet) (a : AccountId) : List Int :=
  (s.transactions.filter fun f => f.source == a).map fun f => f.sequence.toInt

/-- Whether every account in a set is known to the ledger, and its numbers run on, or are all zero
if the number in the ledger is −1. -/
def TxSet.Numbered (s : TxSet) (ledger : LedgerState) : Prop :=
  ∀ f ∈ s.transactions, ∃ entry, ledger.load f.source = .ok entry ∧
    (entry.sequence.toInt ≠ -1 → entry.RunsOn (s.numbersOf f.source)) ∧
    (entry.sequence.toInt = -1 → ∀ n ∈ s.numbersOf f.source, n = 0)

namespace TxSet

variable {s : TxSet} {ledger : LedgerState} {policy : Policy}

/-- A set is numbered if the numbers of each of its accounts are those of what a walk accepts of
some sorted group of the account. -/
theorem numbered_of_accepted (policy : Policy)
    (h : ∀ f ∈ s.transactions, ∃ fs, (∀ g ∈ fs, g.source = f.source) ∧
      fs.Pairwise (fun g g' => g.sequence ≤ g'.sequence) ∧
      (s.numbersOf f.source).Perm ((accepted (.ofState ledger) (policy.isPrivileged f.source) 0
        fs).map fun g => g.sequence.toInt)) :
    s.Numbered ledger := by
  intro f hf
  obtain ⟨fs, hsource, hsorted, hperm⟩ := h f hf
  -- The account has a number in the set, so something of it was accepted, and its entry is there.
  obtain ⟨entry, hload⟩ : ∃ entry, ledger.load f.source = .ok entry := by
    have hmem : f.sequence.toInt ∈ s.numbersOf f.source :=
      List.mem_map_of_mem (List.mem_filter.2 ⟨hf, by simp⟩)
    obtain ⟨g, hg, -⟩ := List.mem_map.1 (hperm.subset hmem)
    obtain ⟨last, hvalid⟩ := exists_verdict_of_mem_accepted hg
    rw [← hsource g ((accepted_sublist _ _ _ _).subset hg)]
    exact exists_load_of_verdict hvalid
  have hview : ((LedgerView.ofState ledger).load f.source ()).1 = .ok entry := hload
  refine ⟨entry, hload, fun hentry => ?_, fun hentry n hn => ?_⟩
  · rw [map_sequence_accepted hview hsource hsorted hentry (entry.current_zero).ge,
      entry.current_zero] at hperm
    have hlength := hperm.length_eq
    simp only [numbersAfter, List.length_map, List.length_range] at hlength
    rw [AccountEntry.RunsOn, hlength]
    exact hperm
  · obtain ⟨g, hg, rfl⟩ := List.mem_map.1 (hperm.subset hn)
    rw [sequence_eq_zero_of_mem_accepted hview hsource hentry g hg, Int64.toInt_zero]

theorem sequence_le_of_canonical {fs : List Frame} (hs : Canonical fs) (a : AccountId) :
    (groupOf fs a).Pairwise fun f g => f.sequence ≤ g.sequence :=
  (pairwise_groupOf hs a).imp fun h => h.1

/-- A set that passes its check is numbered. -/
theorem numbered_of_check (h : (s.check (.ofState ledger) policy ()).1 = .ok ()) :
    s.Numbered ledger := by
  obtain ⟨-, -, hs, hnone⟩ := check_eq_ok_iff_findings.1 h
  refine numbered_of_accepted policy fun f hf => ⟨groupOf s.transactions f.source,
    fun g hg => (mem_groupOf.1 hg).2, sequence_le_of_canonical hs _, ?_⟩
  have hfound := List.flatMap_eq_nil_iff.1 hnone f.source (mem_sources.2 ⟨f, hf, rfl⟩)
  rw [accepted_of_rejections_eq_nil (List.append_eq_nil_iff.1 hfound).1]
  exact (groupOf_perm _ _).symm.map _

/-- What trimming leaves is numbered, as long as full hashes tell the envelopes of the set apart. -/
theorem numbered_trimmed
    (hcoll : ∀ f ∈ s.transactions, ∀ g ∈ s.transactions,
      f.fullHash = g.fullHash → f.envelope = g.envelope)
    (hrange : s.NoOverflow (.ofState ledger) policy) :
    (s.trimmed (.ofState ledger) policy).Numbered ledger := by
  have hleft : (s.trimmed (.ofState ledger) policy).transactions ⊆ s.transactions := fun f hf =>
    (canonicalOrder_perm _).subset ((trimmed_sublist hrange).subset hf)
  refine numbered_of_accepted policy fun f hf => ⟨groupOf (canonicalOrder s.transactions) f.source,
    fun g hg => (mem_groupOf.1 hg).2, sequence_le_of_canonical (canonical_canonicalOrder _) _, ?_⟩
  have hhashes := map_fullHash_filter_trimmed_perm hcoll hrange f.source
  -- Something of the account is left, so it can pay, and its survivors are what was accepted.
  have hpays : survivors (.ofState ledger) policy (canonicalOrder s.transactions) f.source =
      accepted (.ofState ledger) (policy.isPrivileged f.source) 0
        (groupOf (canonicalOrder s.transactions) f.source) := by
    refine if_pos (by_contra fun hpays => ?_)
    rw [survivors, if_neg hpays] at hhashes
    have hmem : f.fullHash ∈ ((s.trimmed (.ofState ledger) policy).transactions.filter
        fun g => g.source == f.source).map Frame.fullHash :=
      List.mem_map_of_mem (List.mem_filter.2 ⟨hf, by simp⟩)
    simpa using hhashes.subset hmem
  rw [hpays] at hhashes
  refine map_perm_of_map_fullHash_perm (fun g (hg : g ∈ s.transactions) g' hg' hhash => ?_)
    (fun g hg => hleft (List.mem_filter.1 hg).1) (fun g hg => ?_) hhashes
  · simp only [Frame.sequence, Frame.transaction, hcoll g hg g' hg' hhash]
  · exact (canonicalOrder_perm _).subset
      (mem_groupOf.1 ((accepted_sublist _ _ _ _).subset hg)).1

/-- **Runs of numbers without gaps.** As long as nothing overflows and full hashes tell its
envelopes apart, a set can be trimmed, and every account then left in it is in the ledger and has in
the set just the next numbers after its number there, each once. In a set that passes its check they
are so from the start. The accounts whose number in the ledger is −1 are the exception: all their
transactions are numbered zero. -/
theorem numbers_run_on (s : TxSet) (ledger : LedgerState) (policy : Policy) :
    let view := LedgerView.ofState ledger
    (s.NoOverflow view policy →
      (∀ f ∈ s.transactions, ∀ g ∈ s.transactions,
        f.fullHash = g.fullHash → f.envelope = g.envelope) →
      (s.trim view policy ()).1 = .ok () ∧ (s.trim view policy ()).2.set.Numbered ledger) ∧
    ((s.check view policy ()).1 = .ok () → s.Numbered ledger) := by
  refine ⟨fun hrange hcoll => ⟨?_, numbered_trimmed hcoll hrange⟩, numbered_of_check⟩
  rw [trim_eq_dropAll hrange]

end TxSet

/-! ### Across zero -/

namespace Sample

/-- The account with another number. -/
def renumbered (number : SequenceNumber) : AccountEntry := { entry with sequence := number }

/-- A ledger with the account under another number. -/
def numbered (number : SequenceNumber) : LedgerState :=
  .ofEntries (closed 4) [renumbered number]

/-- Transactions of the account whose numbers run across zero. -/
def crossing : TxSet :=
  .ofFrames .zero [signed 100 1, signed 100 0, signed 100 (-1), signed 100 (-2)]

/-- Two transactions of the account that are both numbered zero, in canonical order. -/
def rivals : TxSet := .ofFrames .zero [signed 200 0, signed 100 0]

end Sample

namespace TxSet

set_option maxRecDepth 100000 in
/-- The case of a run that comes up to zero from −3, and ends there. -/
theorem numbers_of_crossing :
    let run := Sample.crossing.trim (.ofState (Sample.numbered (-3))) Whitelist.disabled.toPolicy ()
    run.1 = .ok () ∧ run.2.set.Numbered (Sample.numbered (-3)) :=
  have hfit : Sample.crossing.AmountsFit (.ofState (Sample.numbered (-3))) :=
    .of_size (by decide) (by decide) (by decide)
  (numbers_run_on Sample.crossing (Sample.numbered (-3)) Whitelist.disabled.toPolicy).1
    (hfit.noOverflow _) (by decide +kernel)

set_option maxRecDepth 100000 in
/-- After −1 two transactions numbered zero pass the check together, and trimming leaves both. -/
theorem zero_repeats :
    let ledger := Sample.numbered (-1)
    let view := LedgerView.ofState ledger
    let policy := Whitelist.disabled.toPolicy
    Sample.rivals.NoOverflow view policy ∧
    (∀ f ∈ Sample.rivals.transactions, ∀ g ∈ Sample.rivals.transactions,
      f.fullHash = g.fullHash → f.envelope = g.envelope) ∧
    ledger.load Sample.entry.id = .ok (Sample.renumbered (-1)) ∧
    ((Sample.rivals.check view policy ()).1 = .ok () ∧
      ¬ (Sample.renumbered (-1)).RunsOn (Sample.rivals.numbersOf Sample.entry.id)) ∧
    ((Sample.rivals.trim view policy ()).1 = .ok () ∧
      ¬ (Sample.renumbered (-1)).RunsOn
        ((Sample.rivals.trim view policy ()).2.set.numbersOf Sample.entry.id)) := by
  intro ledger view policy
  have hfit : Sample.rivals.AmountsFit view := .of_size (by decide) (by decide) (by decide)
  have hcheck : (Sample.rivals.check view policy ()).1 = .ok () := by decide +kernel
  obtain ⟨-, -, hs, hnone⟩ := check_eq_ok_iff_findings.1 hcheck
  have hnumbers : Sample.rivals.numbersOf Sample.entry.id = [0, 0] := by decide
  have hsorted : Sample.rivals.sort.numbersOf Sample.entry.id = [0, 0] := by
    rw [numbersOf, sort, canonicalOrder_of_canonical hs]
    exact hnumbers
  have hrepeats : ¬ (Sample.renumbered (-1)).RunsOn [0, 0] := by
    rw [AccountEntry.RunsOn]
    decide
  rw [trim_of_findings_eq_nil hs hnone, hnumbers, hsorted]
  exact ⟨hfit.noOverflow policy, by decide +kernel, by decide, ⟨hcheck, hrepeats⟩, rfl, hrepeats⟩

end TxSet

end NextLedger
