import NextLedger.Proofs.Groups

/-!
# What a walk finds

Over a ledger that gives the same answer for one account every time, what a walk comes upon does not
depend on its handler. This file computes it beforehand, account by account: the transactions
**accepted** one after the other, and the stream of **findings**, which are violations, each with
the transactions that dropping it would remove, and places where arithmetic leaves its range.

Walking a set is meeting its findings in order with the handler at hand (`walk_eq_meetAll`). Nothing
that a handler answers flows back into what is found; it only decides what becomes of the set, and
whether the rest is met.
-/

namespace NextLedger

variable {τ : Type}

/-! ### Reports -/

/-- What a handler is told. -/
inductive Report
  | sequence (violation : SequenceViolation)
  /-- The list holds all transactions of the account, by sequence number. -/
  | affordability (violation : AffordabilityViolation) (group : List Frame)
deriving DecidableEq

/-- The fault of a walk that is given up at a report: of the same kind, with the same violation. -/
def Report.fault : Report → SetFault
  | .sequence violation => .sequence violation
  | .affordability violation _ => .affordability violation

/-- A handler's answer to a report. -/
def Handler.answer (h : Handler τ) : Report → τ → Response × τ
  | .sequence violation => h.onSequence violation
  | .affordability violation group => h.onAffordability violation group

/-! ### Findings -/

/-- What a walk comes upon. -/
inductive Finding
  /-- A violation, and the transactions that go if it is dropped. -/
  | violation (report : Report) (members : List Frame)
  /-- A least fee or a least balance is no amount. -/
  | overflow

namespace Finding

/-- What a handler is told of a finding. -/
def report? : Finding → Option Report
  | .violation report _ => some report
  | .overflow => none

/-- The transactions that go if a finding is dropped. -/
def members : Finding → List Frame
  | .violation _ members => members
  | .overflow => []

end Finding

/-- The verdict on a transaction where the ledger's answers are fixed. -/
def Frame.verdict (f : Frame) (view : LedgerView Unit) (exempt : Bool) (last : SequenceNumber) :
    Verdict :=
  (f.check view last exempt ()).1

/-- The report on a transaction that is not valid after the one numbered `last`. -/
def Frame.rejection (f : Frame) (last : SequenceNumber) (reason : Invalidity) : Finding :=
  .violation (.sequence ⟨f.fullHash, f.source, f.sequence, last, reason⟩) [f]

/-- The transactions of an account that are valid where they stand, after the one numbered
`last`. -/
def accepted (view : LedgerView Unit) (exempt : Bool) : SequenceNumber → List Frame → List Frame
  | _, [] => []
  | last, f :: fs =>
    match f.verdict view exempt last with
    | .valid => f :: accepted view exempt f.sequence fs
    | _ => accepted view exempt last fs

/-- What is found among the transactions of an account, after the one numbered `last`. A transaction
that is not valid leaves that number as it is. -/
def rejections (view : LedgerView Unit) (exempt : Bool) :
    SequenceNumber → List Frame → List Finding
  | _, [] => []
  | last, f :: fs =>
    match f.verdict view exempt last with
    | .valid => rejections view exempt f.sequence fs
    | .invalid reason => f.rejection last reason :: rejections view exempt last fs
    | .overflow => .overflow :: rejections view exempt last fs

/-- What is known of an account after more of its transactions are accepted. -/
def Tally.addAll (t : Tally) (privileged : Bool) (fs : List Frame) : Tally :=
  fs.foldl (fun t f => t.add privileged f) t

/-- What is found when an account has to pay for its valid transactions. -/
def settlement (view : LedgerView Unit) (a : AccountId) (group : List Frame) (t : Tally) :
    List Finding :=
  match t.lastValid with
  | none => []
  | some last =>
    match (view.load a ()).1 with
    | .error _ => []
    | .ok entry =>
      match view.header.minimumBalance? entry.subEntries with
      | none => [.overflow]
      | some minimum =>
        if minimum ≤ Amount.subClamped entry.balance t.totalFee then []
        else
          [.violation
            (.affordability ⟨a, last.fullHash, entry.balance, t.totalFee, minimum⟩ group) group]

/-- The tally of an account at the end of its group. -/
def finalTally (view : LedgerView Unit) (policy : Policy) (fs : List Frame) (a : AccountId) :
    Tally :=
  Tally.start.addAll (policy.isPrivileged a)
    (accepted view (policy.isPrivileged a) 0 (groupOf fs a))

/-- What is found at one account. -/
def accountFindings (view : LedgerView Unit) (policy : Policy) (fs : List Frame) (a : AccountId) :
    List Finding :=
  rejections view (policy.isPrivileged a) 0 (groupOf fs a) ++
    settlement view a (groupOf fs a) (finalTally view policy fs a)

/-- What a walk over some transactions finds. -/
def findings (view : LedgerView Unit) (policy : Policy) (fs : List Frame) : List Finding :=
  (sources fs).flatMap (accountFindings view policy fs)

/-! ### Meeting findings -/

namespace Walk

/-- What an answer does to a walk. Only a drop does more than pass on the handler's state. -/
def heed {σ : Type} (w : Walk σ τ) (members : List Frame) : Response × τ → Walk σ τ
  | (.drop, handler) => { w with handler := handler }.dropAll members
  | (_, handler) => { w with handler := handler }

/-- Heeds an answer, and gives up with a fault if it says so. -/
def obey {σ α : Type} (w : Walk σ τ) (members : List Frame) (fault : SetFault) (result : α)
    (answer : Response × τ) : Except SetFault α × Walk σ τ :=
  (if answer.1 = .abort then .error fault else .ok result, w.heed members answer)

/-- Meets one finding with a handler. -/
def meet (h : Handler τ) (x : Finding) (w : Walk Unit τ) : Except SetFault Unit × Walk Unit τ :=
  match x with
  | .overflow => (.error .overflow, w)
  | .violation report members =>
    match h.answer report w.handler with
    | (.abort, handler) => (.error report.fault, w.heed members (.abort, handler))
    | answer => (.ok (), w.heed members answer)

theorem meet_of_abort {h : Handler τ} {r : Report} {w : Walk Unit τ} (members : List Frame)
    (habort : (h.answer r w.handler).1 = .abort) :
    meet h (.violation r members) w = (.error r.fault, w.heed members (h.answer r w.handler)) := by
  rw [meet]
  rcases hanswer : h.answer r w.handler with ⟨_ | _ | _, t⟩
  · simp [hanswer] at habort
  · simp [hanswer] at habort
  · rfl

theorem meet_of_ne_abort {h : Handler τ} {r : Report} {w : Walk Unit τ} (members : List Frame)
    (habort : (h.answer r w.handler).1 ≠ .abort) :
    meet h (.violation r members) w = (.ok (), w.heed members (h.answer r w.handler)) := by
  rw [meet]
  rcases hanswer : h.answer r w.handler with ⟨_ | _ | _, t⟩
  · rfl
  · rfl
  · simp [hanswer] at habort

/-- Meets some findings in order, up to the first that ends the walk. -/
def meetAll (h : Handler τ) : List Finding → Walk Unit τ → Except SetFault Unit × Walk Unit τ
  | [], w => (.ok (), w)
  | x :: xs, w =>
    match meet h x w with
    | (.error fault, w) => (.error fault, w)
    | (.ok (), w) => meetAll h xs w

theorem meetAll_append (h : Handler τ) (xs ys : List Finding) (w : Walk Unit τ) :
    meetAll h (xs ++ ys) w =
      match meetAll h xs w with
      | (.error fault, w) => (.error fault, w)
      | (.ok (), w) => meetAll h ys w := by
  induction xs generalizing w with
  | nil => rfl
  | cons x xs ih =>
    simp only [List.cons_append, meetAll]
    rcases meet h x w with ⟨_ | _, w⟩
    · rfl
    · exact ih w

end Walk

/-! ### The walk meets its findings -/

theorem Tally.lastValid_addAll (t : Tally) (privileged : Bool) (fs : List Frame) :
    (t.addAll privileged fs).lastValid = fs.getLast?.or t.lastValid := by
  induction fs generalizing t with
  | nil => simp [addAll]
  | cons f fs ih =>
    rw [addAll, List.foldl_cons, ← addAll, ih, List.getLast?_cons]
    cases fs.getLast? <;> rfl

section Accepted

variable {view : LedgerView Unit} {exempt : Bool} {last : SequenceNumber} {f : Frame}
  {fs : List Frame}

theorem accepted_cons_of_valid (h : f.verdict view exempt last = .valid) :
    accepted view exempt last (f :: fs) = f :: accepted view exempt f.sequence fs := by
  rw [accepted, h]

theorem accepted_cons_of_ne_valid (h : f.verdict view exempt last ≠ .valid) :
    accepted view exempt last (f :: fs) = accepted view exempt last fs := by
  rw [accepted]
  split
  · exact absurd ‹_› h
  · rfl

theorem rejections_cons_of_valid (h : f.verdict view exempt last = .valid) :
    rejections view exempt last (f :: fs) = rejections view exempt f.sequence fs := by
  rw [rejections, h]

theorem rejections_cons_ne_nil (h : f.verdict view exempt last ≠ .valid) :
    rejections view exempt last (f :: fs) ≠ [] := by
  rw [rejections]
  cases hverdict : f.verdict view exempt last with
  | valid => exact absurd hverdict h
  | invalid reason => exact List.cons_ne_nil _ _
  | overflow => exact List.cons_ne_nil _ _

theorem accepted_sublist (view : LedgerView Unit) (exempt : Bool) (last : SequenceNumber)
    (fs : List Frame) : (accepted view exempt last fs).Sublist fs := by
  induction fs generalizing last with
  | nil => exact .refl _
  | cons f fs ih =>
    by_cases hvalid : f.verdict view exempt last = .valid
    · rw [accepted_cons_of_valid hvalid]
      exact (ih f.sequence).cons_cons f
    · rw [accepted_cons_of_ne_valid hvalid]
      exact (ih last).cons f

theorem exists_verdict_of_mem_accepted (h : f ∈ accepted view exempt last fs) :
    ∃ last, f.verdict view exempt last = .valid := by
  induction fs generalizing last with
  | nil => simp [accepted] at h
  | cons g fs ih =>
    by_cases hvalid : g.verdict view exempt last = .valid
    · rw [accepted_cons_of_valid hvalid] at h
      rcases List.mem_cons.1 h with rfl | h
      · exact ⟨last, hvalid⟩
      · exact ih h
    · rw [accepted_cons_of_ne_valid hvalid] at h
      exact ih h

end Accepted

/-- A transaction that is valid has an account. -/
theorem exists_load_of_verdict {view : LedgerView Unit} {exempt : Bool} {last : SequenceNumber}
    {f : Frame} (h : f.verdict view exempt last = .valid) :
    ∃ entry, (view.load f.source ()).1 = .ok entry := by
  simp only [Frame.verdict, Frame.check] at h
  split at h
  · rcases hload : view.load f.source () with ⟨_ | entry, u⟩
    · rename_i fault
      cases fault <;> simp [hload] at h
    · exact ⟨entry, rfl⟩
  · rename_i hne
    exact absurd h hne

namespace Walk

section Obey

variable {σ : Type} (view : LedgerView σ) (h : Handler τ)

/-- A visit obeys the handler about a transaction that is not valid. -/
theorem visit_eq_obey (exempt : Bool) (f : Frame) (t : Tally) (w : Walk σ τ) :
    visit view h exempt f t w =
      match f.check view t.lastSequence exempt w.store with
      | (.overflow, store) => (.error .overflow, { w with store := store })
      | (.valid, store) => (.ok (t.add exempt f), { w with store := store })
      | (.invalid reason, store) =>
        let violation := ⟨f.fullHash, f.source, f.sequence, t.lastSequence, reason⟩
        { w with store := store }.obey [f] (.sequence violation) t
          (h.onSequence violation w.handler) := by
  rw [visit]
  rcases f.check view t.lastSequence exempt w.store with ⟨_ | reason | _, store⟩
  · rfl
  · dsimp only
    rcases h.onSequence _ w.handler with ⟨_ | _ | _, handler⟩ <;> rfl
  · rfl

/-- Settling obeys the handler about an account that cannot pay. -/
theorem settle_eq_obey (a : AccountId) (group : List Frame) (t : Tally) (w : Walk σ τ) :
    settle view h a group t w =
      match t.lastValid with
      | none => (.ok (), w)
      | some last =>
        match view.load a w.store with
        | (.error fault, store) => (.error (.store fault), { w with store := store })
        | (.ok entry, store) =>
          match view.header.minimumBalance? entry.subEntries with
          | none => (.error .overflow, { w with store := store })
          | some minimum =>
            if minimum ≤ Amount.subClamped entry.balance t.totalFee then
              (.ok (), { w with store := store })
            else
              let violation := ⟨a, last.fullHash, entry.balance, t.totalFee, minimum⟩
              { w with store := store }.obey group (.affordability violation) ()
                (h.onAffordability violation group w.handler) := by
  rw [settle]
  cases t.lastValid with
  | none => rfl
  | some last =>
    dsimp only
    rcases view.load a w.store with ⟨_ | entry, store⟩
    · rfl
    · dsimp only
      cases view.header.minimumBalance? entry.subEntries with
      | none => rfl
      | some minimum =>
        dsimp only
        split
        · rfl
        · rcases h.onAffordability _ group w.handler with ⟨_ | _ | _, handler⟩ <;> rfl

end Obey

variable (view : LedgerView Unit) (h : Handler τ)

theorem visit_eq (exempt : Bool) (f : Frame) (t : Tally) (w : Walk Unit τ) :
    visit view h exempt f t w =
      match f.verdict view exempt t.lastSequence with
      | .overflow => (.error .overflow, w)
      | .valid => (.ok (t.add exempt f), w)
      | .invalid reason =>
        match meet h (f.rejection t.lastSequence reason) w with
        | (.error fault, w) => (.error fault, w)
        | (.ok (), w) => (.ok t, w) := by
  simp only [visit, Frame.verdict]
  rcases f.check view t.lastSequence exempt w.store with ⟨_ | reason | _, u⟩
  · rfl
  · simp only [Frame.rejection, meet, Handler.answer]
    rcases h.onSequence _ w.handler with ⟨_ | _ | _, t'⟩ <;> rfl
  · rfl

/-- Visiting a group meets its rejections, and tallies what is accepted. -/
theorem visitAll_eq (exempt : Bool) (fs : List Frame) (t : Tally) (w : Walk Unit τ) :
    visitAll view h exempt fs t w =
      match meetAll h (rejections view exempt t.lastSequence fs) w with
      | (.error fault, w) => (.error fault, w)
      | (.ok (), w) => (.ok (t.addAll exempt (accepted view exempt t.lastSequence fs)), w) := by
  -- Of the tally only the last number decides what comes next.
  induction fs generalizing t w with
  | nil => rfl
  | cons f fs ih =>
    rw [visitAll, visit_eq, rejections, accepted]
    cases f.verdict view exempt t.lastSequence with
    | valid => exact ih (t.add exempt f) w
    | overflow => rfl
    | invalid reason =>
      simp only [meetAll]
      rcases meet h (f.rejection t.lastSequence reason) w with ⟨_ | _, w⟩
      · rfl
      · exact ih t w

/-- Settling an account meets what its settlement finds. An account whose last valid transaction is
known can be loaded. -/
theorem settle_eq (a : AccountId) (group : List Frame) (t : Tally) (w : Walk Unit τ)
    (hload : t.lastValid ≠ none → ∃ entry, (view.load a ()).1 = .ok entry) :
    settle view h a group t w = meetAll h (settlement view a group t) w := by
  simp only [settle, settlement]
  cases hlast : t.lastValid with
  | none => rfl
  | some last =>
    obtain ⟨entry, hentry⟩ := hload (by simp [hlast])
    -- The view keeps no state, so it answers as it did.
    have hw : view.load a w.store = (.ok entry, ()) := Prod.ext hentry rfl
    simp only [hw]
    cases view.header.minimumBalance? entry.subEntries with
    | none => rfl
    | some minimum =>
      dsimp only
      split
      · rfl
      · simp only [meetAll, meet, Handler.answer]
        rcases h.onAffordability _ group w.handler with ⟨_ | _ | _, t'⟩ <;> rfl

theorem account_eq (policy : Policy) (fs : List Frame) (a : AccountId) (w : Walk Unit τ) :
    account view policy h fs a w = meetAll h (accountFindings view policy fs a) w := by
  rw [account, accountFindings, meetAll_append, visitAll_eq,
    show Tally.start.lastSequence = 0 from rfl]
  rcases meetAll h _ w with ⟨_ | _, w⟩
  · rfl
  · -- A transaction was accepted, so the account was loaded before, and it is loaded again.
    refine settle_eq view h a _ _ w fun hlast => ?_
    have hne : accepted view (policy.isPrivileged a) 0 (groupOf fs a) ≠ [] := by
      simpa [Tally.lastValid_addAll, Tally.start] using hlast
    obtain ⟨f, hf⟩ := List.exists_mem_of_ne_nil _ hne
    obtain ⟨last, hvalid⟩ := exists_verdict_of_mem_accepted hf
    rw [← (mem_groupOf.1 ((accepted_sublist view _ 0 _).subset hf)).2]
    exact exists_load_of_verdict hvalid

theorem accounts_eq (policy : Policy) (fs : List Frame) (as : List AccountId) (w : Walk Unit τ) :
    accounts view policy h fs as w =
      meetAll h (as.flatMap (accountFindings view policy fs)) w := by
  induction as generalizing w with
  | nil => rfl
  | cons a as ih =>
    rw [accounts, account_eq, List.flatMap_cons, meetAll_append]
    rcases meetAll h _ w with ⟨_ | _, w⟩
    · rfl
    · exact ih w

end Walk

namespace TxSet

/-- A set that is not in canonical order is refused where it descends first, over any ledger view
and with any handler, and neither of them is asked anything. -/
theorem walk_of_firstDescent? {σ : Type} {s : TxSet} {view : LedgerView σ} {policy : Policy}
    {position : Nat} (hdescent : firstDescent? s.transactions = some position) (h : Handler τ)
    (store : σ) (t : τ) :
    s.walk view policy h store t = (.error (.notCanonical position), ⟨s, [], store, t⟩) := by
  simp only [walk, hdescent]

variable {s : TxSet} {view : LedgerView Unit} {policy : Policy}

/-- **The walk meets its findings.** A set in canonical order is walked by meeting what is found in
it, in order, with the handler. -/
theorem walk_eq_meetAll (hs : Canonical s.transactions) (h : Handler τ) (t : τ) :
    s.walk view policy h () t =
      Walk.meetAll h (findings view policy s.transactions) ⟨s, [], (), t⟩ := by
  simp only [walk, firstDescent?_eq_none_iff.2 hs]
  exact Walk.accounts_eq view h policy _ _ _

/-- The findings of a set are those of its canonical order. -/
theorem trim_eq_meetAll :
    s.trim view policy () =
      Walk.meetAll .trim (findings view policy (canonicalOrder s.transactions))
        ⟨s.sort, [], (), ()⟩ :=
  walk_eq_meetAll (s := s.sort) (canonical_canonicalOrder _) _ _

end TxSet

/-! ### Overflow -/

/-- Whether arithmetic stays in its range throughout the walk of a set in canonical order: the walk
that nothing stops meets no overflow. -/
def TxSet.NoOverflow (s : TxSet) (view : LedgerView Unit) (policy : Policy) : Prop :=
  (s.sort.walk view policy (.always .proceed) () ()).1 ≠ .error .overflow

theorem Walk.meetAll_proceed_eq_overflow_iff {xs : List Finding} {w : Walk Unit Unit} :
    (meetAll (.always .proceed) xs w).1 = .error .overflow ↔ .overflow ∈ xs := by
  induction xs generalizing w with
  | nil => simp [meetAll]
  | cons x xs ih =>
    cases x with
    | overflow => simp [meetAll, meet]
    | violation r members =>
      have hproceed : ((Handler.always .proceed).answer r w.handler).1 ≠ .abort := by
        cases r <;> simp [Handler.answer, Handler.always]
      rw [meetAll, meet_of_ne_abort members hproceed]
      simpa using ih

theorem TxSet.noOverflow_iff {s : TxSet} {view : LedgerView Unit} {policy : Policy} :
    s.NoOverflow view policy ↔
      ∀ x ∈ findings view policy (canonicalOrder s.transactions), x ≠ .overflow := by
  rw [NoOverflow, walk_eq_meetAll (canonical_canonicalOrder _), Ne,
    Walk.meetAll_proceed_eq_overflow_iff]
  exact ⟨fun hmem x hx hover => hmem (hover ▸ hx), fun hall hmem => hall _ hmem rfl⟩

/-! ### The two plain handlers -/

namespace Walk

/-- A strict handler stops at the first finding, and changes nothing. -/
theorem meetAll_strict (xs : List Finding) (w : Walk Unit Unit) :
    meetAll .strict xs w =
      (match xs with
        | [] => .ok ()
        | .overflow :: _ => .error .overflow
        | .violation r _ :: _ => .error r.fault, w) := by
  rcases xs with _ | ⟨⟨r, members⟩ | _, xs⟩
  · rfl
  · cases r <;> rfl
  · rfl

theorem dropAll_append (w : Walk Unit τ) (fs gs : List Frame) :
    w.dropAll (fs ++ gs) = (w.dropAll fs).dropAll gs := List.foldl_append

/-- A trimming handler drops the members of every finding. -/
theorem meetAll_trim {xs : List Finding} (hxs : ∀ x ∈ xs, x ≠ .overflow) (w : Walk Unit Unit) :
    meetAll .trim xs w = (.ok (), w.dropAll (xs.flatMap Finding.members)) := by
  induction xs generalizing w with
  | nil => rfl
  | cons x xs ih =>
    obtain ⟨hx, htail⟩ := List.forall_mem_cons.1 hxs
    cases x with
    | overflow => exact absurd rfl hx
    | violation r members =>
      have hmeet : meet .trim (.violation r members) w = (.ok (), w.dropAll members) := by
        cases r <;> rfl
      rw [meetAll, hmeet, List.flatMap_cons, dropAll_append]
      exact ih htail (w.dropAll members)

theorem removed_prefix_dropAll (w : Walk Unit τ) (fs : List Frame) :
    w.removed <+: (w.dropAll fs).removed := by
  induction fs generalizing w with
  | nil => exact List.prefix_rfl
  | cons f fs ih =>
    refine List.IsPrefix.trans ?_ (ih (w.drop f))
    simp only [drop]
    split
    · exact List.prefix_append _ _
    · exact List.prefix_rfl

end Walk

/-! ### The members of a finding -/

section Members

variable {view : LedgerView Unit} {policy : Policy} {fs : List Frame}

theorem members_of_mem_rejections {exempt : Bool} {last : SequenceNumber} {x : Finding}
    (hx : x ∈ rejections view exempt last fs) : x = .overflow ∨ ∃ f ∈ fs, x.members = [f] := by
  induction fs generalizing last with
  | nil => simp [rejections] at hx
  | cons f fs ih =>
    have hcons : (x = .overflow ∨ ∃ g ∈ fs, x.members = [g]) →
        x = .overflow ∨ ∃ g ∈ f :: fs, x.members = [g] :=
      Or.imp_right fun ⟨g, hg, hmem⟩ => ⟨g, List.mem_cons_of_mem _ hg, hmem⟩
    simp only [rejections] at hx
    split at hx
    · exact hcons (ih hx)
    · rcases List.mem_cons.1 hx with rfl | hx
      · exact Or.inr ⟨f, List.mem_cons_self, rfl⟩
      · exact hcons (ih hx)
    · rcases List.mem_cons.1 hx with rfl | hx
      · exact Or.inl rfl
      · exact hcons (ih hx)

/-- Settling an account finds at most one thing, and what it finds takes the group along. -/
theorem settlement_cases (view : LedgerView Unit) (a : AccountId) (t : Tally) :
    (∀ group, settlement view a group t = []) ∨ (∀ group, settlement view a group t = [.overflow]) ∨
      ∃ report : List Frame → Report, ∀ group,
        settlement view a group t = [.violation (report group) group] := by
  simp only [settlement]
  cases t.lastValid with
  | none => exact .inl fun _ => rfl
  | some last =>
    cases (view.load a ()).1 with
    | error fault => exact .inl fun _ => rfl
    | ok entry =>
      dsimp only
      cases view.header.minimumBalance? entry.subEntries with
      | none => exact .inr (.inl fun _ => rfl)
      | some minimum =>
        by_cases hpays : minimum ≤ Amount.subClamped entry.balance t.totalFee
        · exact .inl fun _ => if_pos hpays
        · exact .inr (.inr ⟨_, fun _ => if_neg hpays⟩)

theorem members_of_mem_settlement {a : AccountId} {t : Tally} {x : Finding}
    (hx : x ∈ settlement view a fs t) : x = .overflow ∨ x.members = fs := by
  rcases settlement_cases view a t with h | h | ⟨report, h⟩
  · simp [h] at hx
  · exact .inl (by simpa [h] using hx)
  · rw [h, List.mem_singleton] at hx
    exact .inr (hx ▸ rfl)

/-- The members of a violation found at an account are transactions of the account, and there are
some. -/
theorem members_of_mem_accountFindings {a : AccountId} {x : Finding}
    (hx : x ∈ accountFindings view policy fs a) :
    x = .overflow ∨ x.members ≠ [] ∧ ∀ f ∈ x.members, f ∈ fs ∧ f.source = a := by
  rcases List.mem_append.1 hx with hx | hx
  · refine (members_of_mem_rejections hx).imp_right fun ⟨f, hf, hmem⟩ => ?_
    rw [hmem]
    exact ⟨List.cons_ne_nil _ _, by simpa using mem_groupOf.1 hf⟩
  · refine (members_of_mem_settlement hx).imp_right fun hmem => ?_
    rw [hmem]
    refine ⟨fun hnil => ?_, fun f hf => mem_groupOf.1 hf⟩
    -- An account without transactions has no valid one, and then nothing is settled.
    simp [finalTally, hnil, accepted, Tally.addAll, Tally.start, settlement] at hx

theorem members_of_mem_findings {x : Finding} (hx : x ∈ findings view policy fs) :
    x = .overflow ∨ x.members ≠ [] ∧ x.members ⊆ fs := by
  obtain ⟨a, -, hx⟩ := List.mem_flatMap.1 hx
  exact (members_of_mem_accountFindings hx).imp_right fun ⟨hne, hsub⟩ =>
    ⟨hne, fun f hf => (hsub f hf).1⟩

end Members

end NextLedger
