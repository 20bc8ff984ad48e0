import NextLedger.Proofs.Affordability

/-!
# Validation in unbounded integers

Validation works with numbers of 64 bits: least fees and least balances are checked products, the
next number is a clamped sum, fees are added up in clamped sums and taken off a balance in a clamped
difference. The same rules can be read in **unbounded integers**, where a walk carries the list of
the transactions found valid so far, and asks whether the account affords all of them
(`TxSet.exactWalk`). Nothing can overflow there (`TxSet.exactWalk_ne_overflow`), and only what goes
into a report is brought back to an amount.

For sets of at most 2³¹ transactions with at most 2³¹ operations each, least fees and sums of fees
fit, and wherever a clamped number stops at the end of its range the comparison made with it has the
outcome of the exact one. So every transaction gets the exact answer (`Frame.check_eq_exact`), and a
walk is the exact walk, with the same reports and the same calls to the ledger view, up to the one
product that may outgrow 64 bits: the least balance of an account (`Walk.ExactUnlessOutgrown`).
-/

namespace NextLedger

variable {σ τ : Type}

/-! ### One transaction -/

namespace Frame

/-- What is wrong with a transaction by itself. -/
def exactFaultAlone? (f : Frame) (header : LedgerHeader) (exempt : Bool) : Option Invalidity :=
  if f.transaction.operations.isEmpty then some .missingOperation
  else
    match f.transaction.malformed? with
    | some (index, fault) => some (.malformedOperation index fault)
    | none =>
      if exempt ∨ header.minFee f.operationCount ≤ f.transaction.fee.toNat then none
      else some (.insufficientFee f.fee (Amount.clamp (header.minFee f.operationCount)))

/-- What is wrong with a transaction of a known account after the one numbered `last`. -/
def exactFaultInPlace? (f : Frame) (entry : AccountEntry) (last : SequenceNumber) :
    Option Invalidity :=
  if f.sequence.toInt ≠ entry.current last + 1 then
    some (.badSequence (Amount.clamp (entry.current last + 1)) f.sequence)
  else if f.isSigned then none
  else some .badAuthorization

/-- What is wrong with a transaction on top of a ledger, right after the source's transaction
numbered `last`. -/
def exactFault? (f : Frame) (view : LedgerView σ) (last : SequenceNumber) (exempt : Bool) (s : σ) :
    Option Invalidity × σ :=
  match f.exactFaultAlone? view.header exempt with
  | some reason => (some reason, s)
  | none =>
    match view.load f.source s with
    | (.error (.notFound _), s) => (some (.noAccount f.source), s)
    | (.error fault, s) => (some (.store fault), s)
    | (.ok entry, s) => (f.exactFaultInPlace? entry last, s)

end Frame

/-- The answer about a transaction of which it is known what is wrong, if anything. -/
def Verdict.ofFault? : Option Invalidity → Verdict
  | none => .valid
  | some reason => .invalid reason

namespace Frame

theorem checkAlone_eq_exact {f : Frame} {header : LedgerHeader} (exempt : Bool)
    (hfit : (header.minFee f.operationCount : Int) ≤ Amount.greatest) :
    f.checkAlone header exempt = .ofFault? (f.exactFaultAlone? header exempt) := by
  obtain ⟨minFee, hminFee, hexact⟩ := LedgerHeader.exists_minFee? hfit
  have hfee := f.fee_lt_iff hexact
  simp only [checkAlone, exactFaultAlone?, minFee?, hminFee, ← Amount.eq_clamp_of_toInt_eq hexact]
  cases f.transaction.operations.isEmpty with
  | true => rfl
  | false =>
    cases f.transaction.malformed? with
    | some p => rfl
    | none =>
      by_cases hpays : header.minFee f.operationCount ≤ f.transaction.fee.toNat <;>
        cases exempt <;> simp [hfee, hpays, Verdict.ofFault?]

/-- The next number is decided exactly even after the greatest one, where it is no number. -/
theorem checkAccount_eq_exact (f : Frame) (entry : AccountEntry) (last : SequenceNumber) :
    f.checkAccount entry last = .ofFault? (f.exactFaultInPlace? entry last) := by
  have hnext := Amount.ne_next_iff (if last = 0 then entry.sequence else last) f.sequence
  rw [checkAccount, exactFaultInPlace?]
  by_cases h : f.sequence.toInt ≠ entry.current last + 1
  · rw [if_pos h, if_pos (hnext.2 h)]
    rfl
  · rw [if_neg h, if_neg (mt hnext.1 h)]
    split <;> rfl

/-- **A transaction gets the exact answer** if its least fee fits, after every number. -/
theorem check_eq_exact {f : Frame} {view : LedgerView σ}
    (hfit : (view.header.minFee f.operationCount : Int) ≤ Amount.greatest) (last : SequenceNumber)
    (exempt : Bool) (s : σ) :
    f.check view last exempt s =
      (.ofFault? (f.exactFault? view last exempt s).1, (f.exactFault? view last exempt s).2) := by
  rw [check, exactFault?, checkAlone_eq_exact exempt hfit]
  cases f.exactFaultAlone? view.header exempt with
  | some reason => rfl
  | none =>
    simp only [Verdict.ofFault?]
    rcases view.load f.source s with ⟨fault | entry, s⟩
    · cases fault <;> rfl
    · exact Prod.ext (checkAccount_eq_exact f entry last) rfl

end Frame

/-! ### The exact walk -/

namespace Walk

/-- Visits one transaction after some valid ones of its account. -/
def exactVisit (view : LedgerView σ) (h : Handler τ) (exempt : Bool) (f : Frame)
    (valid : List Frame) (w : Walk σ τ) : Except SetFault (List Frame) × Walk σ τ :=
  let last := (valid.getLast?.map Frame.sequence).getD 0
  match f.exactFault? view last exempt w.store with
  | (none, store) => (.ok (valid ++ [f]), { w with store := store })
  | (some reason, store) =>
    let violation := ⟨f.fullHash, f.source, f.sequence, last, reason⟩
    { w with store := store }.obey [f] (.sequence violation) valid
      (h.onSequence violation w.handler)

/-- Visits some transactions of one account in order. -/
def exactVisitAll (view : LedgerView σ) (h : Handler τ) (exempt : Bool) :
    List Frame → List Frame → Walk σ τ → Except SetFault (List Frame) × Walk σ τ
  | [], valid, w => (.ok valid, w)
  | f :: fs, valid, w =>
    match exactVisit view h exempt f valid w with
    | (.error fault, w) => (.error fault, w)
    | (.ok valid, w) => exactVisitAll view h exempt fs valid w

/-- Checks that an account affords its valid transactions. -/
def exactSettle (view : LedgerView σ) (h : Handler τ) (a : AccountId) (exempt : Bool)
    (group valid : List Frame) (w : Walk σ τ) : Except SetFault Unit × Walk σ τ :=
  match valid.getLast? with
  | none => (.ok (), w)
  | some last =>
    match view.load a w.store with
    | (.error fault, store) => (.error (.store fault), { w with store := store })
    | (.ok entry, store) =>
      if entry.Affords view.header exempt valid then (.ok (), { w with store := store })
      else
        let violation := ⟨a, last.fullHash, entry.balance,
          Amount.clamp (if exempt then 0 else totalFees valid : Nat),
          Amount.clamp (view.header.minimumBalance entry.subEntries)⟩
        { w with store := store }.obey group (.affordability violation) ()
          (h.onAffordability violation group w.handler)

/-- Visits all transactions of one account. -/
def exactAccount (view : LedgerView σ) (policy : Policy) (h : Handler τ) (fs : List Frame)
    (a : AccountId) (w : Walk σ τ) : Except SetFault Unit × Walk σ τ :=
  match exactVisitAll view h (policy.isPrivileged a) (groupOf fs a) [] w with
  | (.error fault, w) => (.error fault, w)
  | (.ok valid, w) => exactSettle view h a (policy.isPrivileged a) (groupOf fs a) valid w

/-- Visits the transactions of some accounts in order. -/
def exactAccounts (view : LedgerView σ) (policy : Policy) (h : Handler τ) (fs : List Frame) :
    List AccountId → Walk σ τ → Except SetFault Unit × Walk σ τ
  | [], w => (.ok (), w)
  | a :: as, w =>
    match exactAccount view policy h fs a w with
    | (.error fault, w) => (.error fault, w)
    | (.ok (), w) => exactAccounts view policy h fs as w

end Walk

namespace TxSet

/-- Walks a set. -/
def exactWalk (s : TxSet) (view : LedgerView σ) (policy : Policy) (h : Handler τ) (store : σ)
    (handler : τ) : Except SetFault Unit × Walk σ τ :=
  match firstDescent? s.transactions with
  | some position => (.error (.notCanonical position), ⟨s, [], store, handler⟩)
  | none =>
    Walk.exactAccounts view policy h s.transactions (sources s.transactions)
      ⟨s, [], store, handler⟩

/-- Decides whether an agreed set can be applied on top of a ledger. -/
def exactCheck (s : TxSet) (view : LedgerView σ) (policy : Policy) (store : σ) :
    Except SetFault Unit × Walk σ Unit :=
  if view.lastClosed.hash ≠ s.previous then
    (.error (.previousMismatch view.lastClosed.hash s.previous), ⟨s, [], store, ()⟩)
  else if view.maxSetSize < s.size then
    (.error (.tooMany s.size view.maxSetSize), ⟨s, [], store, ()⟩)
  else s.exactWalk view policy .strict store ()

/-- Puts a set in canonical order and removes every transaction that would make its walk fail. -/
def exactTrim (s : TxSet) (view : LedgerView σ) (policy : Policy) (store : σ) :
    Except SetFault Unit × Walk σ Unit :=
  s.sort.exactWalk view policy .trim store ()

end TxSet

/-! ### Nothing overflows in unbounded integers -/

namespace Walk

theorem obey_ne_overflow {α : Type} {w : Walk σ τ} {members : List Frame} {fault : SetFault}
    {result : α} (hfault : fault ≠ .overflow) (answer : Response × τ) :
    (w.obey members fault result answer).1 ≠ .error .overflow := by
  simp only [obey]
  split <;> simp [hfault]

variable (view : LedgerView σ) (h : Handler τ)

theorem exactVisitAll_ne_overflow (exempt : Bool) (fs valid : List Frame) (w : Walk σ τ) :
    (exactVisitAll view h exempt fs valid w).1 ≠ .error .overflow := by
  induction fs generalizing valid w with
  | nil => simp [exactVisitAll]
  | cons f fs ih =>
    have hvisit : (exactVisit view h exempt f valid w).1 ≠ .error .overflow := by
      simp only [exactVisit]
      split
      · simp
      · exact obey_ne_overflow (by simp) _
    rw [exactVisitAll]
    generalize exactVisit view h exempt f valid w = run at hvisit ⊢
    rcases run with ⟨fault | valid', w'⟩
    · simpa using hvisit
    · exact ih valid' w'

theorem exactSettle_ne_overflow (a : AccountId) (exempt : Bool) (group valid : List Frame)
    (w : Walk σ τ) : (exactSettle view h a exempt group valid w).1 ≠ .error .overflow := by
  simp only [exactSettle]
  split
  · simp
  · split
    · simp
    · split
      · simp
      · exact obey_ne_overflow (by simp) _

theorem exactAccount_ne_overflow (policy : Policy) (fs : List Frame) (a : AccountId)
    (w : Walk σ τ) : (exactAccount view policy h fs a w).1 ≠ .error .overflow := by
  have hvisits := exactVisitAll_ne_overflow view h (policy.isPrivileged a) (groupOf fs a) [] w
  rw [exactAccount]
  generalize exactVisitAll view h (policy.isPrivileged a) (groupOf fs a) [] w = run at hvisits ⊢
  rcases run with ⟨fault | valid, w'⟩
  · simpa using hvisits
  · exact exactSettle_ne_overflow view h a _ _ valid w'

theorem exactAccounts_ne_overflow (policy : Policy) (fs : List Frame) (as : List AccountId)
    (w : Walk σ τ) : (exactAccounts view policy h fs as w).1 ≠ .error .overflow := by
  induction as generalizing w with
  | nil => simp [exactAccounts]
  | cons a as ih =>
    have haccount := exactAccount_ne_overflow view h policy fs a w
    rw [exactAccounts]
    generalize exactAccount view policy h fs a w = run at haccount ⊢
    rcases run with ⟨fault | _, w'⟩
    · simpa using haccount
    · exact ih w'

end Walk

theorem TxSet.exactWalk_ne_overflow (s : TxSet) (view : LedgerView σ) (policy : Policy)
    (h : Handler τ) (store : σ) (t : τ) :
    (s.exactWalk view policy h store t).1 ≠ .error .overflow := by
  rw [exactWalk]
  split
  · simp
  · exact Walk.exactAccounts_ne_overflow view h policy _ _ _

/-! ### The walk is the exact walk -/

/-- The last number of a tally is that of the last valid transaction, or zero. -/
theorem Tally.lastSequence_start_addAll (exempt : Bool) (valid : List Frame) :
    (Tally.start.addAll exempt valid).lastSequence =
      (valid.getLast?.map Frame.sequence).getD 0 := by
  rcases List.eq_nil_or_concat' valid with rfl | ⟨init, last, rfl⟩
  · rfl
  · rw [addAll, List.foldl_append, List.getLast?_concat]
    rfl

theorem Tally.lastValid_start_addAll (exempt : Bool) (valid : List Frame) :
    (Tally.start.addAll exempt valid).lastValid = valid.getLast? := by
  rw [lastValid_addAll, start, Option.or_none]

namespace Walk

variable {view : LedgerView σ} {h : Handler τ}

theorem obey_map {α β : Type} (g : α → β) (w : Walk σ τ) (members : List Frame)
    (fault : SetFault) (result : α) (answer : Response × τ) :
    w.obey members fault (g result) answer =
      ((w.obey members fault result answer).1.map g, (w.obey members fault result answer).2) := by
  simp only [obey]
  split <;> rfl

/-- A visit finds the same valid, and reports and heeds the same, as in unbounded integers. -/
theorem visit_eq_exact {f : Frame}
    (hfit : (view.header.minFee f.operationCount : Int) ≤ Amount.greatest) (exempt : Bool)
    (valid : List Frame) (w : Walk σ τ) :
    visit view h exempt f (Tally.start.addAll exempt valid) w =
      ((exactVisit view h exempt f valid w).1.map (Tally.start.addAll exempt),
        (exactVisit view h exempt f valid w).2) := by
  rw [visit_eq_obey, exactVisit, Tally.lastSequence_start_addAll, Frame.check_eq_exact hfit]
  rcases f.exactFault? view _ exempt w.store with ⟨_ | reason, store⟩
  · simp [Verdict.ofFault?, Except.map, Tally.addAll]
  · exact obey_map _ { w with store := store } [f] _ valid _

theorem visitAll_eq_exact {fs : List Frame}
    (hfit : ∀ f ∈ fs, (view.header.minFee f.operationCount : Int) ≤ Amount.greatest)
    (exempt : Bool) (valid : List Frame) (w : Walk σ τ) :
    visitAll view h exempt fs (Tally.start.addAll exempt valid) w =
      ((exactVisitAll view h exempt fs valid w).1.map (Tally.start.addAll exempt),
        (exactVisitAll view h exempt fs valid w).2) := by
  induction fs generalizing valid w with
  | nil => rfl
  | cons f fs ih =>
    obtain ⟨hf, hfs⟩ := List.forall_mem_cons.1 hfit
    rw [visitAll, exactVisitAll, visit_eq_exact hf]
    rcases exactVisit view h exempt f valid w with ⟨_ | valid', w'⟩
    · rfl
    · exact ih hfs valid' w'

/-- A visit finds its transaction valid, or leaves what was valid before. -/
theorem eq_or_eq_of_exactVisit {exempt : Bool} {f : Frame} {valid valid' : List Frame}
    {w : Walk σ τ} (hrun : (exactVisit view h exempt f valid w).1 = .ok valid') :
    valid' = valid ∨ valid' = valid ++ [f] := by
  rw [exactVisit] at hrun
  split at hrun
  · cases hrun
    exact .inr rfl
  · simp only [obey] at hrun
    split at hrun
    · cases hrun
    · cases hrun
      exact .inl rfl

/-- What is found valid is a part of what is visited. -/
theorem sublist_of_exactVisitAll {exempt : Bool} {fs valid valid' : List Frame} {w w' : Walk σ τ}
    (hrun : exactVisitAll view h exempt fs valid w = (.ok valid', w')) :
    valid'.Sublist (valid ++ fs) := by
  induction fs generalizing valid w with
  | nil =>
    obtain ⟨rfl, -⟩ : valid = valid' ∧ w = w' := by simpa [exactVisitAll] using hrun
    rw [List.append_nil]
  | cons f fs ih =>
    rw [exactVisitAll] at hrun
    rcases hvisit : exactVisit view h exempt f valid w with ⟨fault | next, w₁⟩
    · simp [hvisit] at hrun
    · rw [hvisit] at hrun
      rcases eq_or_eq_of_exactVisit (congrArg Prod.fst hvisit) with rfl | rfl
      · exact (ih hrun).trans ((List.sublist_cons_self f fs).append_left next)
      · rw [List.append_cons]
        exact ih hrun

/-- Whether a run ended in an overflow at an account whose least balance has outgrown its range. The
account is the source of one of some transactions, and was the last to be loaded. -/
def Outgrown (view : LedgerView σ) (fs : List Frame) (run : Except SetFault Unit × Walk σ τ) :
    Prop :=
  run.1 = .error .overflow ∧ ∃ f ∈ fs, ∃ store entry,
    view.load f.source store = (.ok entry, run.2.store) ∧
      Amount.greatest < view.header.minimumBalance entry.subEntries

/-- Settling compares as in unbounded integers, wherever the balance and the fees stand in their
range, unless the least balance leaves its own. -/
theorem settle_exact_or_outgrown {a : AccountId} {exempt : Bool} {group valid fs : List Frame}
    (ha : ∃ f ∈ fs, f.source = a) (hfees : (totalFees valid : Int) ≤ Amount.greatest)
    (w : Walk σ τ) :
    settle view h a group (Tally.start.addAll exempt valid) w =
        exactSettle view h a exempt group valid w ∨
      Outgrown view fs (settle view h a group (Tally.start.addAll exempt valid) w) := by
  rw [settle_eq_obey, exactSettle, Tally.lastValid_start_addAll]
  cases valid.getLast? with
  | none => exact .inl rfl
  | some last =>
    dsimp only
    rcases hload : view.load a w.store with ⟨_ | entry, store⟩
    · exact .inl rfl
    · dsimp only
      cases hminimum : view.header.minimumBalance? entry.subEntries with
      | none =>
        obtain ⟨f, hf, rfl⟩ := ha
        refine .inr ⟨rfl, f, hf, w.store, entry, hload, ?_⟩
        have hleast : Amount.least < 0 := by decide
        have houtside := Amount.ofInt?_eq_none_iff.1 hminimum
        omega
      | some minimum =>
        left
        have hexact := Amount.toInt_of_ofInt? hminimum
        have hfee := Tally.toInt_totalFee_start exempt hfees
        have hpays := entry.le_subClamped_iff_affords exempt hexact hfees
        dsimp only
        rw [← Amount.eq_clamp_of_toInt_eq hexact, ← Amount.eq_clamp_of_toInt_eq hfee]
        by_cases haffords : entry.Affords view.header exempt valid
        · rw [if_pos (hpays.2 haffords), if_pos haffords]
        · rw [if_neg (mt hpays.1 haffords), if_neg haffords]

theorem account_exact_or_outgrown (policy : Policy) {fs : List Frame} {a : AccountId}
    (hfit : ∀ f ∈ fs, (view.header.minFee f.operationCount : Int) ≤ Amount.greatest)
    (hfees : (totalFees fs : Int) ≤ Amount.greatest) (ha : a ∈ sources fs) (w : Walk σ τ) :
    account view policy h fs a w = exactAccount view policy h fs a w ∨
      Outgrown view fs (account view policy h fs a w) := by
  have hgroup : ∀ f ∈ groupOf fs a,
      (view.header.minFee f.operationCount : Int) ≤ Amount.greatest :=
    fun f hf => hfit f (mem_groupOf.1 hf).1
  have hvisits : visitAll view h (policy.isPrivileged a) (groupOf fs a) .start w = _ :=
    visitAll_eq_exact hgroup (policy.isPrivileged a) [] w
  rw [account, exactAccount]
  rw [hvisits]
  rcases hrun : exactVisitAll view h (policy.isPrivileged a) (groupOf fs a) [] w with
    ⟨fault | valid, w'⟩
  · exact .inl rfl
  · refine settle_exact_or_outgrown (mem_sources.1 ha) (le_trans (Int.ofNat_le.2 ?_) hfees) w'
    exact (totalFees_le_of_sublist (sublist_of_exactVisitAll hrun)).trans
      ((totalFees_perm (groupOf_perm fs a)).le.trans
        (totalFees_le_of_sublist List.filter_sublist))

theorem accounts_exact_or_outgrown (policy : Policy) {fs : List Frame} {as : List AccountId}
    (hfit : ∀ f ∈ fs, (view.header.minFee f.operationCount : Int) ≤ Amount.greatest)
    (hfees : (totalFees fs : Int) ≤ Amount.greatest) (has : as ⊆ sources fs) (w : Walk σ τ) :
    accounts view policy h fs as w = exactAccounts view policy h fs as w ∨
      Outgrown view fs (accounts view policy h fs as w) := by
  induction as generalizing w with
  | nil => exact .inl rfl
  | cons a as ih =>
    obtain ⟨ha, has⟩ := List.cons_subset.1 has
    rw [accounts, exactAccounts]
    rcases account_exact_or_outgrown policy hfit hfees ha w with heq | hout
    · rw [heq]
      rcases exactAccount view policy h fs a w with ⟨_ | _, w'⟩
      · exact .inl rfl
      · exact ih has w'
    · -- The overflow ends the walk.
      generalize account view policy h fs a w = run at hout ⊢
      obtain ⟨fault, w'⟩ := run
      obtain ⟨rfl, hload⟩ := hout
      exact .inr ⟨rfl, hload⟩

end Walk

/-! ### Sets of a practical size -/

/-- Whether a run is the exact one and does not overflow, or else has met an account whose least
balance has outgrown its range. -/
def Walk.ExactUnlessOutgrown (view : LedgerView σ) (fs : List Frame)
    (run exact : Except SetFault Unit × Walk σ τ) : Prop :=
  (run = exact ∧ run.1 ≠ .error .overflow) ∨ Outgrown view fs run

namespace TxSet

theorem walk_exact_unless_outgrown {s : TxSet} (hsize : s.size ≤ 2 ^ 31)
    (hoperations : ∀ f ∈ s.transactions, f.operationCount ≤ 2 ^ 31) (view : LedgerView σ)
    (policy : Policy) (h : Handler τ) (store : σ) (t : τ) :
    Walk.ExactUnlessOutgrown view s.transactions (s.walk view policy h store t)
      (s.exactWalk view policy h store t) := by
  have hexact : s.walk view policy h store t = s.exactWalk view policy h store t ∨
      Walk.Outgrown view s.transactions (s.walk view policy h store t) := by
    rw [walk, exactWalk]
    cases firstDescent? s.transactions with
    | some position => exact .inl rfl
    | none =>
      exact Walk.accounts_exact_or_outgrown policy
        (fun f hf => view.header.minFee_le_greatest (hoperations f hf))
        (totalFees_le_greatest hsize) (List.Subset.refl _) _
  refine hexact.imp_left fun heq => ⟨heq, ?_⟩
  rw [heq]
  exact exactWalk_ne_overflow s view policy h store t

/-- **Validation is exact.** For a set of at most 2³¹ transactions with at most 2³¹ operations each,
over any ledger view, the fees of all transactions together fit, and every transaction gets the
answer that it has in unbounded integers, after every number. Walks with any handler, the check and
trimming are those in unbounded integers, unless they end at an account whose least balance is no
amount. -/
theorem validation_is_exact (s : TxSet) (view : LedgerView σ) (policy : Policy)
    (hsize : s.size ≤ 2 ^ 31)
    (hoperations : ∀ f ∈ s.transactions, f.operationCount ≤ 2 ^ 31) :
    (totalFees s.transactions : Int) ≤ Amount.greatest ∧
    (∀ f ∈ s.transactions, ∀ last exempt store,
      f.check view last exempt store =
        (.ofFault? (f.exactFault? view last exempt store).1,
          (f.exactFault? view last exempt store).2)) ∧
    (∀ (τ : Type) (h : Handler τ) store t,
      Walk.ExactUnlessOutgrown view s.transactions (s.walk view policy h store t)
        (s.exactWalk view policy h store t)) ∧
    (∀ store, Walk.ExactUnlessOutgrown view s.transactions (s.check view policy store)
      (s.exactCheck view policy store)) ∧
    ∀ store, Walk.ExactUnlessOutgrown view s.transactions (s.trim view policy store)
      (s.exactTrim view policy store) := by
  refine ⟨totalFees_le_greatest hsize, fun f hf => ?_, fun τ h store t => ?_, fun store => ?_,
    fun store => ?_⟩
  · exact Frame.check_eq_exact (view.header.minFee_le_greatest (hoperations f hf))
  · exact walk_exact_unless_outgrown hsize hoperations view policy h store t
  · rw [check, exactCheck]
    split_ifs
    · exact .inl ⟨rfl, by simp⟩
    · exact .inl ⟨rfl, by simp⟩
    · exact walk_exact_unless_outgrown hsize hoperations view policy .strict store ()
  · have hperm : s.sort.transactions.Perm s.transactions := canonicalOrder_perm _
    have htrim := walk_exact_unless_outgrown (s := s.sort) (hperm.length_eq.trans_le hsize)
      (fun f hf => hoperations f (hperm.subset hf)) view policy .trim store ()
    refine htrim.imp_right fun ⟨hoverflow, f, hf, hload⟩ => ⟨hoverflow, f, hperm.subset hf, hload⟩

/-- The case of a contested set over a ledger with a small reserve: no least balance outgrows an
amount, so trimming it is trimming it in unbounded integers. -/
theorem trim_contested_exactly :
    let view := LedgerView.ofState Sample.ledger
    let policy := Whitelist.disabled.toPolicy
    Sample.contested.size ≤ 2 ^ 31 ∧
    (∀ f ∈ Sample.contested.transactions, f.operationCount ≤ 2 ^ 31) ∧
    Sample.contested.trim view policy () = Sample.contested.exactTrim view policy () := by
  intro view policy
  have hsize : Sample.contested.size ≤ 2 ^ 31 := by decide
  have hoperations : ∀ f ∈ Sample.contested.transactions, f.operationCount ≤ 2 ^ 31 := by decide
  obtain ⟨-, -, -, -, htrim⟩ := validation_is_exact Sample.contested view policy hsize hoperations
  refine ⟨hsize, hoperations, ?_⟩
  rcases htrim () with ⟨hexact, -⟩ | ⟨-, f, hf, store, entry, hload, houtgrown⟩
  · exact hexact
  · have hfits := Sample.amountsFit_contested.minimumBalance f hf entry (congrArg Prod.fst hload)
    exact absurd hfits (not_le.2 houtgrown)

end TxSet

namespace Sample

/-- The account with the most sub-entries that there can be. -/
def sprawling : AccountEntry := { entry with subEntries := 0xFFFFFFFF }

/-- A ledger with that account and the greatest base reserve. -/
def outgrown : LedgerState := .ofEntries ⟨.zero, ⟨1, .zero, 100, 0xFFFFFFFF, 3, 0⟩⟩ [sprawling]

end Sample

namespace TxSet

/-- A least balance outgrows its range: the check and trimming of a set with one transaction
overflow, where in unbounded integers the account just cannot pay. -/
theorem least_balance_overflows :
    let s := TxSet.ofFrames .zero [Sample.signed 100 1]
    let view := LedgerView.ofState Sample.outgrown
    let policy := Whitelist.disabled.toPolicy
    s.size ≤ 2 ^ 31 ∧ (∀ f ∈ s.transactions, f.operationCount ≤ 2 ^ 31) ∧
    ((s.check view policy ()).1 = .error .overflow ∧
      (s.exactCheck view policy ()).1 = .error (.affordability
        ⟨Sample.entry.id, (Sample.signed 100 1).fullHash, 1000, 100, Amount.clamp (2 ^ 64 - 1)⟩)) ∧
    ((s.trim view policy ()).1 = .error .overflow ∧
      (s.exactTrim view policy ()).1 = .ok () ∧
      (s.exactTrim view policy ()).2.removed = s.transactions) := by
  decide +kernel

end TxSet

end NextLedger
