import NextLedger.Proofs.Walk.Effect

/-!
# The gate of a walk

Before a walk asks its ledger view or its handler anything, it looks for the first **descent**: an
index at which a full hash is below the one before it. The search goes through the transactions once
and remembers the last full hash, from zero on. The test of canonical order compares neighbours.
They agree on every list, and what the search finds is the least descent
(`firstDescent?_eq_some_iff`).

Behind the gate a walk visits accounts, and only what it comes upon there can be its fault: none of
the faults of the gate, and none of those that a check looks for before it walks
(`Walk.isVisit_of_accounts`). So the fault of a check tells how far the check has come. A strict
handler never drops anything, and a check leaves its set as it is, memo included, over any view and
whether it passes or not.
-/

namespace NextLedger

variable {σ τ : Type}

/-! ### The first descent -/

/-- Whether the full hash at an index is below the one before it. Before the first stands `last`. -/
def DescendsAfter (last : Hash256) (fs : List Frame) (i : Nat) : Prop :=
  ∃ l r, (last :: fs.map Frame.fullHash)[i]? = some l ∧ (fs.map Frame.fullHash)[i]? = some r ∧ r < l

/-- Whether the full hash at an index is below the one before it, so that there must be one. -/
def DescendsAt (fs : List Frame) (i : Nat) : Prop :=
  0 < i ∧ ∃ f g, fs[i - 1]? = some f ∧ fs[i]? = some g ∧ g.fullHash < f.fullHash

theorem descendsAfter_cons_zero {last : Hash256} {f : Frame} {fs : List Frame} :
    DescendsAfter last (f :: fs) 0 ↔ f.fullHash < last := by
  simp [DescendsAfter]

theorem descendsAfter_cons_succ {last : Hash256} {f : Frame} {fs : List Frame} {i : Nat} :
    DescendsAfter last (f :: fs) (i + 1) ↔ DescendsAfter f.fullHash fs i := Iff.rfl

/-- A search that goes on after some hash finds the least place where the full hashes descend. -/
theorem descentAfter?_eq_some_iff {last : Hash256} {start place : Nat} {fs : List Frame} :
    descentAfter? last start fs = some place ↔
      ∃ i, place = start + i ∧ IsLeast {i | DescendsAfter last fs i} i := by
  induction fs generalizing last start with
  | nil => simp [descentAfter?, DescendsAfter, IsLeast]
  | cons f fs ih =>
    rw [descentAfter?]
    by_cases hlt : f.fullHash < last
    · have hzero : DescendsAfter last (f :: fs) 0 := descendsAfter_cons_zero.2 hlt
      rw [if_pos hlt, Option.some.injEq]
      constructor
      · rintro rfl
        exact ⟨0, rfl, hzero, fun _ _ => Nat.zero_le _⟩
      · rintro ⟨i, rfl, -, hleast⟩
        obtain rfl : i = 0 := Nat.le_zero.1 (hleast hzero)
        rfl
    · -- There is no descent at the first transaction, so all that follow it are at a successor.
      rw [if_neg hlt, ih]
      constructor
      · rintro ⟨i, rfl, hi, hleast⟩
        refine ⟨i + 1, by omega, descendsAfter_cons_succ.2 hi, fun k hk => ?_⟩
        cases k with
        | zero => exact absurd (descendsAfter_cons_zero.1 hk) hlt
        | succ k => exact Nat.succ_le_succ (hleast (descendsAfter_cons_succ.1 hk))
      · rintro ⟨i, rfl, hi, hleast⟩
        cases i with
        | zero => exact absurd (descendsAfter_cons_zero.1 hi) hlt
        | succ i =>
          refine ⟨i, by omega, descendsAfter_cons_succ.1 hi, fun k hk => ?_⟩
          exact Nat.le_of_succ_le_succ (hleast (a := k + 1) (descendsAfter_cons_succ.2 hk))

/-- Nothing is below zero, so what descends after zero descends after a transaction. -/
theorem descendsAfter_zero_iff {fs : List Frame} {i : Nat} :
    DescendsAfter .zero fs i ↔ DescendsAt fs i := by
  cases i with
  | zero => simp [DescendsAfter, DescendsAt, Std.not_lt.2 (Hash256.zero_le _)]
  | succ i => simp [DescendsAfter, DescendsAt]

/-- **The search finds the least descent.** -/
theorem firstDescent?_eq_some_iff {fs : List Frame} {i : Nat} :
    firstDescent? fs = some i ↔ IsLeast {i | DescendsAt fs i} i := by
  simp [firstDescent?, descentAfter?_eq_some_iff, descendsAfter_zero_iff]

/-! ### Faults behind the gate -/

/-- Whether a fault is one that visiting accounts comes upon. -/
def SetFault.IsVisit : SetFault → Prop
  | .sequence _ | .affordability _ | .store _ | .overflow => True
  | .notCanonical _ | .previousMismatch _ _ | .tooMany _ _ => False

namespace Walk

variable {view : LedgerView σ} {h : Handler τ} {fault : SetFault}

theorem eq_of_obey {α : Type} {w : Walk σ τ} {members : List Frame} {own : SetFault} {result : α}
    {answer : Response × τ} (herror : (w.obey members own result answer).1 = .error fault) :
    fault = own := by
  simp only [obey] at herror
  split at herror
  · exact (Except.error.inj herror).symm
  · cases herror

theorem isVisit_of_visit {exempt : Bool} {f : Frame} {t : Tally} {w : Walk σ τ}
    (herror : (visit view h exempt f t w).1 = .error fault) : fault.IsVisit := by
  rw [visit_eq_obey] at herror
  generalize f.check view t.lastSequence exempt w.store = checked at herror
  rcases checked with ⟨_ | reason | _, store⟩
  · cases herror
  · rw [eq_of_obey herror]
    trivial
  · cases herror
    trivial

theorem isVisit_of_visitAll {exempt : Bool} {fs : List Frame} {t : Tally} {w : Walk σ τ}
    (herror : (visitAll view h exempt fs t w).1 = .error fault) : fault.IsVisit := by
  induction fs generalizing t w with
  | nil => cases herror
  | cons f fs ih =>
    rw [visitAll] at herror
    rcases hvisit : visit view h exempt f t w with ⟨own | t', w'⟩ <;> rw [hvisit] at herror
    · cases herror
      exact isVisit_of_visit (congrArg Prod.fst hvisit)
    · exact ih herror

theorem isVisit_of_settle {a : AccountId} {group : List Frame} {t : Tally} {w : Walk σ τ}
    (herror : (settle view h a group t w).1 = .error fault) : fault.IsVisit := by
  rw [settle_eq_obey] at herror
  cases hlast : t.lastValid with
  | none => simp [hlast] at herror
  | some last =>
    simp only [hlast] at herror
    generalize view.load a w.store = loaded at herror
    rcases loaded with ⟨own | entry, store⟩
    · cases herror
      trivial
    · dsimp only at herror
      split at herror
      · cases herror
        trivial
      · split at herror
        · cases herror
        · rw [eq_of_obey herror]
          trivial

theorem isVisit_of_account {policy : Policy} {fs : List Frame} {a : AccountId} {w : Walk σ τ}
    (herror : (account view policy h fs a w).1 = .error fault) : fault.IsVisit := by
  rw [account] at herror
  rcases hvisits : visitAll view h (policy.isPrivileged a) (groupOf fs a) .start w with
    ⟨own | t, w'⟩ <;> simp only [hvisits] at herror
  · cases herror
    exact isVisit_of_visitAll (congrArg Prod.fst hvisits)
  · exact isVisit_of_settle herror

/-- Visiting accounts comes upon no fault but those of visits. -/
theorem isVisit_of_accounts {policy : Policy} {fs : List Frame} {as : List AccountId}
    {w : Walk σ τ} (herror : (accounts view policy h fs as w).1 = .error fault) :
    fault.IsVisit := by
  induction as generalizing w with
  | nil => cases herror
  | cons a as ih =>
    rw [accounts] at herror
    rcases haccount : account view policy h fs a w with ⟨own | _, w'⟩ <;>
      rw [haccount] at herror
    · cases herror
      exact isVisit_of_account (congrArg Prod.fst haccount)
    · exact ih herror

/-! ### Strict walks -/

/-- A strict handler drops nothing, whatever it is told. -/
theorem invariant_strict (s : TxSet) (fs : List Frame) :
    Invariant .strict fs fun _ (w : Walk σ Unit) => w.set = s where
  load _ hw := hw
  take hw := hw
  sequence _ _ hw := hw
  affordability _ _ hw := hw

end Walk

/-! ### The answers of the gate and of a check -/

namespace TxSet

variable (s : TxSet) (view : LedgerView σ) (policy : Policy) (store : σ)

/-- The visits of a walk, without its gate. -/
def visits (h : Handler τ) (handler : τ) : Except SetFault Unit × Walk σ τ :=
  Walk.accounts view policy h s.transactions (sources s.transactions) ⟨s, [], store, handler⟩

variable {s} in
theorem walk_of_isCanonical (hs : isCanonical s.transactions = true) (h : Handler τ) (handler : τ) :
    s.walk view policy h store handler = s.visits view policy store h handler := by
  simp only [walk, firstDescent?_eq_none_iff.2 (isCanonical_iff.1 hs), visits]

/-- **The gate.** A walk gives the least descent as its fault exactly if the set is not in canonical
order. -/
theorem walk_eq_notCanonical_iff (h : Handler τ) (handler : τ) (position : Nat) :
    (s.walk view policy h store handler).1 = .error (.notCanonical position) ↔
      isCanonical s.transactions = false ∧ IsLeast {i | DescendsAt s.transactions i} position := by
  rw [← firstDescent?_eq_some_iff, ← exists_firstDescent?_iff]
  cases hdescent : firstDescent? s.transactions with
  | none =>
    have hs : isCanonical s.transactions = true :=
      isCanonical_iff.2 (firstDescent?_eq_none_iff.1 hdescent)
    simp only [walk_of_isCanonical view policy store hs, reduceCtorEq, and_false, iff_false]
    exact fun herror => Walk.isVisit_of_accounts herror
  | some i => simp [walk_of_firstDescent? hdescent]

theorem set_walk_strict : (s.walk view policy .strict store ()).2.set = s :=
  (Walk.invariant_strict s s.transactions).walk view policy store () rfl

theorem set_check : (s.check view policy store).2.set = s := by
  rw [check]
  split_ifs
  · rfl
  · rfl
  · exact s.set_walk_strict view policy store

/-- What the fault of a check tells. It comes from the first test that fails, and the tests before
it are passed: the first is of the ledger below, the second of the size, the third of the order, and
the last are the visits to accounts. -/
def RefusedFor : SetFault → Prop
  | .previousMismatch expected actual =>
    view.lastClosed.hash ≠ s.previous ∧ expected = view.lastClosed.hash ∧ actual = s.previous
  | .tooMany count max =>
    view.lastClosed.hash = s.previous ∧ view.maxSetSize < s.size ∧
      count = s.size ∧ max = view.maxSetSize
  | .notCanonical position =>
    view.lastClosed.hash = s.previous ∧ s.size ≤ view.maxSetSize ∧
      isCanonical s.transactions = false ∧ IsLeast {i | DescendsAt s.transactions i} position
  | fault =>
    view.lastClosed.hash = s.previous ∧ s.size ≤ view.maxSetSize ∧
      isCanonical s.transactions = true ∧ (s.visits view policy store .strict ()).1 = .error fault

/-- **The order of the tests.** A check fails with just the faults that its tests, in their order,
give. -/
theorem check_eq_error_iff (fault : SetFault) :
    (s.check view policy store).1 = .error fault ↔ s.RefusedFor view policy store fault := by
  rw [check]
  by_cases hprevious : view.lastClosed.hash = s.previous
  · rw [if_neg (not_not.2 hprevious)]
    by_cases hsize : view.maxSetSize < s.size
    · rw [if_pos hsize]
      cases fault <;> simp [RefusedFor, hprevious, hsize, Nat.not_le.2 hsize, @eq_comm Nat]
    · have hsize' : s.size ≤ view.maxSetSize := Nat.not_lt.1 hsize
      rw [if_neg hsize]
      cases hs : isCanonical s.transactions with
      | false =>
        obtain ⟨i, hi⟩ := exists_firstDescent?_iff.2 hs
        rw [walk_of_firstDescent? hi]
        cases fault <;>
          simp [RefusedFor, hprevious, hsize', hs, ← firstDescent?_eq_some_iff, hi]
      | true =>
        -- The visits come upon none of the faults that were tested for before.
        have hvisit : (s.visits view policy store .strict ()).1 = .error fault → fault.IsVisit :=
          Walk.isVisit_of_accounts
        rw [walk_of_isCanonical view policy store hs]
        cases fault <;> simp_all [RefusedFor, SetFault.IsVisit]
  · rw [if_pos hprevious]
    cases fault <;> simp [RefusedFor, hprevious, @eq_comm Hash256]

/-- **A walk is gated, and a check only reads.** A walk fails for the order of its set exactly if
the set is not in canonical order, and then at the least index whose full hash is below the one
before it. In that case the set is as it was, memo included, and so are the states of the view and
the handler, whatever these keep, such as a count of their calls. A strict walk and a check leave
the set as it was in any case, whatever the view answers. The fault of a check is that of the first
test it does not pass: the ledger below, the size, the order, the visits to accounts. -/
theorem gated_and_read_only (h : Handler τ) (handler : τ) :
    (∀ position, (s.walk view policy h store handler).1 = .error (.notCanonical position) ↔
      isCanonical s.transactions = false ∧ IsLeast {i | DescendsAt s.transactions i} position) ∧
    (isCanonical s.transactions = false ↔ ∃ position, s.walk view policy h store handler =
      (.error (.notCanonical position), ⟨s, [], store, handler⟩)) ∧
    (s.walk view policy .strict store ()).2.set = s ∧
    (s.check view policy store).2.set = s ∧
    ∀ fault,
      (s.check view policy store).1 = .error fault ↔ s.RefusedFor view policy store fault := by
  have hgate := s.walk_eq_notCanonical_iff view policy store h handler
  refine ⟨hgate, ⟨fun hs => ?_, fun ⟨i, hwalk⟩ => ?_⟩, s.set_walk_strict view policy store,
    s.set_check view policy store, s.check_eq_error_iff view policy store⟩
  · obtain ⟨i, hi⟩ := exists_firstDescent?_iff.2 hs
    exact ⟨i, walk_of_firstDescent? hi h store handler⟩
  · exact ((hgate i).1 (congrArg Prod.fst hwalk)).1

end TxSet

end NextLedger
