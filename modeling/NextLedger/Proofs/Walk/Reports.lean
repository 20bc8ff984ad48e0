import NextLedger.Proofs.Removal
import NextLedger.Proofs.Affordability

/-!
# What a walk reports

The findings of a set fix one stream of reports (`TxSet.reports`). Every handler, whatever it keeps
in its state and however it mixes its answers, is told a first segment of that stream: all of it, or
the part up to its first abort. The walk fails exactly if there is an abort, with the fault of the
report that was answered so (`walk_reports`).

Giving up at the first violation and dropping every violation are the two ends: the former fails
exactly if the latter removes something, and with the first thing that the latter acts on.
-/

namespace NextLedger

variable {τ : Type}

/-! ### Conversations -/

/-- Whether calls, each with its answer, go through a stream up to and including the first one that
is answered with an abort, or through all of it if none is. -/
structure UpToAbort (stream : List Report) (calls : List (Report × Response)) : Prop where
  isPrefix : calls.map (·.1) <+: stream
  not_before_last : ∀ c ∈ calls.dropLast, c.2 ≠ .abort
  complete : (∀ c ∈ calls, c.2 ≠ .abort) → calls.map (·.1) = stream

namespace Handler

/-- The handler that answers as `h` does and notes every report together with the answer. -/
def noting (h : Handler τ) : Handler (τ × List (Report × Response)) where
  onSequence violation s :=
    let (answer, t) := h.onSequence violation s.1
    (answer, t, s.2 ++ [(.sequence violation, answer)])
  onAffordability violation group s :=
    let (answer, t) := h.onAffordability violation group s.1
    (answer, t, s.2 ++ [(.affordability violation group, answer)])

theorem answer_noting (h : Handler τ) (r : Report) (t : τ) (notes : List (Report × Response)) :
    h.noting.answer r (t, notes) =
      ((h.answer r t).1, (h.answer r t).2, notes ++ [(r, (h.answer r t).1)]) := by
  cases r <;> rfl

/-- The reports of a stream with a handler's answers, up to its first abort, and the state in which
the handler is left. -/
def converse (h : Handler τ) : List Report → τ → List (Report × Response) × τ
  | [], t => ([], t)
  | r :: rs, t =>
    if (h.answer r t).1 = .abort then ([(r, .abort)], (h.answer r t).2)
    else
      ((r, (h.answer r t).1) :: (converse h rs (h.answer r t).2).1,
        (converse h rs (h.answer r t).2).2)

/-- A conversation goes through its stream up to the first abort. -/
theorem converse_upToAbort (h : Handler τ) (rs : List Report) (t : τ) :
    UpToAbort rs (h.converse rs t).1 := by
  induction rs generalizing t with
  | nil => exact ⟨List.prefix_rfl, by simp [converse], fun _ => rfl⟩
  | cons r rs ih =>
    rw [converse]
    split
    · refine ⟨List.cons_prefix_cons.2 ⟨rfl, List.nil_prefix⟩, by simp, fun hall => ?_⟩
      exact absurd rfl (hall _ List.mem_cons_self)
    · rename_i hne
      obtain ⟨hpre, hlast, hcomplete⟩ := ih (h.answer r t).2
      refine ⟨List.cons_prefix_cons.2 ⟨rfl, hpre⟩, fun c hc => ?_, fun hall => ?_⟩
      · rcases hcalls : (h.converse rs (h.answer r t).2).1 with _ | ⟨c', calls⟩
        · simp [hcalls] at hc
        · rw [hcalls] at hc hlast
          rcases List.mem_cons.1 hc with rfl | hc
          · exact hne
          · exact hlast c hc
      · exact congrArg _ (hcomplete (List.forall_mem_cons.1 hall).2)

end Handler

/-! ### Walks and conversations -/

namespace Walk

/-- A walk whose handler has some notes. -/
def noted (w : Walk Unit τ) (notes : List (Report × Response)) :
    Walk Unit (τ × List (Report × Response)) :=
  ⟨w.set, w.removed, w.store, (w.handler, notes)⟩

/-- A walk as it is without its handler's notes. -/
def withoutNotes (w : Walk Unit (τ × List (Report × Response))) : Walk Unit τ :=
  ⟨w.set, w.removed, w.store, w.handler.1⟩

@[simp] theorem handler_dropAll {σ : Type} (w : Walk σ τ) (fs : List Frame) :
    (w.dropAll fs).handler = w.handler := by
  induction fs generalizing w with
  | nil => rfl
  | cons f fs ih => exact ih (w.drop f)

/-- Dropping is the same whatever the handler keeps. -/
theorem dropAll_withHandler {σ υ : Type} (w : Walk σ τ) (u : υ) (fs : List Frame) :
    (⟨w.set, w.removed, w.store, u⟩ : Walk σ υ).dropAll fs =
      ⟨(w.dropAll fs).set, (w.dropAll fs).removed, (w.dropAll fs).store, u⟩ := by
  induction fs generalizing w with
  | nil => rfl
  | cons f fs ih => exact ih (w.drop f)

theorem dropAll_noted (w : Walk Unit τ) (notes : List (Report × Response)) (fs : List Frame) :
    (w.noted notes).dropAll fs = (w.dropAll fs).noted notes := by
  rw [noted, noted, dropAll_withHandler, handler_dropAll]

theorem heed_noted (w : Walk Unit τ) (notes notes' : List (Report × Response))
    (members : List Frame) (answer : Response × τ) :
    (w.noted notes).heed members (answer.1, answer.2, notes') =
      (w.heed members answer).noted notes' := by
  rcases answer with ⟨_ | _ | _, t⟩
  · rfl
  · exact dropAll_noted { w with handler := t } notes' members
  · rfl

@[simp] theorem handler_heed (w : Walk Unit τ) (members : List Frame) (answer : Response × τ) :
    (w.heed members answer).handler = answer.2 := by
  rcases answer with ⟨_ | _ | _, t⟩ <;> simp [heed]

/-- Noting changes nothing in a walk, and the notes are the handler's conversation. -/
theorem meetAll_noting (h : Handler τ) {xs : List Finding} (hxs : ∀ x ∈ xs, x ≠ .overflow)
    (w : Walk Unit τ) (notes : List (Report × Response)) :
    meetAll h.noting xs (w.noted notes) =
      ((meetAll h xs w).1, (meetAll h xs w).2.noted
        (notes ++ (h.converse (xs.filterMap Finding.report?) w.handler).1)) := by
  induction xs generalizing w notes with
  | nil => simp [meetAll, Handler.converse]
  | cons x xs ih =>
    obtain ⟨hx, htail⟩ := List.forall_mem_cons.1 hxs
    cases x with
    | overflow => exact absurd rfl hx
    | violation r members =>
      have hnoting : h.noting.answer r (w.noted notes).handler =
          ((h.answer r w.handler).1, (h.answer r w.handler).2,
            notes ++ [(r, (h.answer r w.handler).1)]) :=
        Handler.answer_noting h r w.handler notes
      simp only [meetAll, Handler.converse, Finding.report?, List.filterMap_cons]
      by_cases habort : (h.answer r w.handler).1 = .abort
      · rw [meet_of_abort members habort, meet_of_abort members (by rw [hnoting]; exact habort),
          hnoting, heed_noted, if_pos habort, habort]
      · rw [meet_of_ne_abort members habort,
          meet_of_ne_abort members (by rw [hnoting]; exact habort), hnoting, heed_noted,
          if_neg habort]
        simpa using ih htail (w.heed members (h.answer r w.handler))
          (notes ++ [(r, (h.answer r w.handler).1)])

/-- A walk ends well exactly if its handler never aborts. -/
theorem meetAll_eq_ok_iff (h : Handler τ) {xs : List Finding} (hxs : ∀ x ∈ xs, x ≠ .overflow)
    (w : Walk Unit τ) :
    (meetAll h xs w).1 = .ok () ↔
      ∀ c ∈ (h.converse (xs.filterMap Finding.report?) w.handler).1, c.2 ≠ .abort := by
  induction xs generalizing w with
  | nil => simp [meetAll, Handler.converse]
  | cons x xs ih =>
    obtain ⟨hx, htail⟩ := List.forall_mem_cons.1 hxs
    cases x with
    | overflow => exact absurd rfl hx
    | violation r members =>
      simp only [meetAll, Handler.converse, Finding.report?, List.filterMap_cons]
      by_cases habort : (h.answer r w.handler).1 = .abort
      · simp [meet_of_abort members habort, habort]
      · simpa [meet_of_ne_abort members habort, habort] using
          ih htail (w.heed members (h.answer r w.handler))

/-- A walk fails with the fault of the report that its handler answered with an abort. -/
theorem getLast?_converse_of_meetAll_eq_error {h : Handler τ} {xs : List Finding}
    (hxs : ∀ x ∈ xs, x ≠ .overflow) {w : Walk Unit τ} {fault : SetFault}
    (herror : (meetAll h xs w).1 = .error fault) :
    ∃ r, (h.converse (xs.filterMap Finding.report?) w.handler).1.getLast? = some (r, .abort) ∧
      fault = r.fault := by
  induction xs generalizing w with
  | nil => simp [meetAll] at herror
  | cons x xs ih =>
    obtain ⟨hx, htail⟩ := List.forall_mem_cons.1 hxs
    cases x with
    | overflow => exact absurd rfl hx
    | violation r members =>
      simp only [meetAll, Handler.converse, Finding.report?, List.filterMap_cons] at herror ⊢
      by_cases habort : (h.answer r w.handler).1 = .abort
      · rw [meet_of_abort members habort] at herror
        rw [if_pos habort]
        exact ⟨r, rfl, by simpa using herror.symm⟩
      · rw [meet_of_ne_abort members habort] at herror
        rw [if_neg habort]
        obtain ⟨r', hlast, hfault⟩ := ih htail herror
        rw [handler_heed] at hlast
        exact ⟨r', by simp [List.getLast?_cons, hlast], hfault⟩

end Walk

/-! ### The stream of reports -/

namespace TxSet

variable {s : TxSet} {view : LedgerView Unit} {policy : Policy}

/-- What a walk reports if nothing stops it. About a set that is out of order it reports nothing. -/
def reports (s : TxSet) (view : LedgerView Unit) (policy : Policy) : List Report :=
  if isCanonical s.transactions then
    (findings view policy s.transactions).filterMap Finding.report?
  else []

theorem reports_of_canonical (hs : Canonical s.transactions) :
    s.reports view policy = (findings view policy s.transactions).filterMap Finding.report? :=
  if_pos (isCanonical_iff.2 hs)

theorem reports_of_firstDescent? {position : ℕ}
    (h : firstDescent? s.transactions = some position) : s.reports view policy = [] :=
  if_neg fun hs => not_canonical_of_firstDescent? h (isCanonical_iff.1 hs)

theorem findings_ne_overflow (hs : Canonical s.transactions) (hrange : s.NoOverflow view policy) :
    ∀ x ∈ findings view policy s.transactions, x ≠ .overflow := by
  rw [noOverflow_iff, canonicalOrder_of_canonical hs] at hrange
  exact hrange

/-- A walk with a handler that notes what it is told is the walk without the notes, and the notes
are the handler's conversation with the stream of reports. -/
theorem walk_noting (hrange : s.NoOverflow view policy) (h : Handler τ) (t : τ) :
    s.walk view policy h.noting () (t, []) =
      ((s.walk view policy h () t).1,
        (s.walk view policy h () t).2.noted (h.converse (s.reports view policy) t).1) := by
  obtain hs | ⟨position, hdescent⟩ := canonical_or_exists_firstDescent? s.transactions
  · rw [walk_eq_meetAll hs, walk_eq_meetAll hs, reports_of_canonical hs]
    exact Walk.meetAll_noting h (findings_ne_overflow hs hrange) ⟨s, [], (), t⟩ []
  · rw [walk_of_firstDescent? hdescent, walk_of_firstDescent? hdescent,
      reports_of_firstDescent? hdescent]
    rfl

/-- A walk that ends well is one of a set in canonical order. -/
theorem canonical_of_walk_eq_ok {h : Handler τ} {t : τ}
    (hok : (s.walk view policy h () t).1 = .ok ()) : Canonical s.transactions := by
  obtain hs | ⟨position, hdescent⟩ := canonical_or_exists_firstDescent? s.transactions
  · exact hs
  · simp [walk_of_firstDescent? hdescent] at hok

/-- A walk of a set in canonical order ends well exactly if no answer is an abort. -/
theorem walk_eq_ok_iff (hs : Canonical s.transactions) (hrange : s.NoOverflow view policy)
    (h : Handler τ) (t : τ) :
    (s.walk view policy h () t).1 = .ok () ↔
      ∀ c ∈ (h.converse (s.reports view policy) t).1, c.2 ≠ .abort := by
  rw [walk_eq_meetAll hs, reports_of_canonical hs]
  exact Walk.meetAll_eq_ok_iff h (findings_ne_overflow hs hrange) ⟨s, [], (), t⟩

/-- A walk of a set in canonical order fails for what was answered with an abort. -/
theorem getLast?_converse_of_walk_eq_error (hs : Canonical s.transactions)
    (hrange : s.NoOverflow view policy) {h : Handler τ} {t : τ} {fault : SetFault}
    (herror : (s.walk view policy h () t).1 = .error fault) :
    ∃ r, (h.converse (s.reports view policy) t).1.getLast? = some (r, .abort) ∧
      fault = r.fault := by
  rw [walk_eq_meetAll hs] at herror
  rw [reports_of_canonical hs]
  exact Walk.getLast?_converse_of_meetAll_eq_error (findings_ne_overflow hs hrange) herror

/-- The store is never the reason why a walk fails. -/
theorem walk_ne_store (hrange : s.NoOverflow view policy) (h : Handler τ) (t : τ)
    (fault : StoreFault) : (s.walk view policy h () t).1 ≠ .error (.store fault) := by
  intro hstore
  obtain hs | ⟨position, hdescent⟩ := canonical_or_exists_firstDescent? s.transactions
  · obtain ⟨r, -, hr⟩ := getLast?_converse_of_walk_eq_error hs hrange hstore
    cases r <;> simp [Report.fault] at hr
  · simp [walk_of_firstDescent? hdescent] at hstore

/-- Walking strictly succeeds exactly if nothing is found. -/
theorem walk_strict_eq_ok_iff (hs : Canonical s.transactions) :
    (s.walk view policy .strict () ()).1 = .ok () ↔ findings view policy s.transactions = [] := by
  rw [walk_eq_meetAll hs, Walk.meetAll_strict]
  rcases findings view policy s.transactions with _ | ⟨⟨r, members⟩ | _, xs⟩ <;> simp

/-- A check passes exactly if the set is built on the last closed ledger, is within capacity and in
canonical order, and nothing is found in it. -/
theorem check_eq_ok_iff_findings :
    (s.check view policy ()).1 = .ok () ↔ view.lastClosed.hash = s.previous ∧
      s.size ≤ view.maxSetSize ∧ Canonical s.transactions ∧
        findings view policy s.transactions = [] := by
  simp only [check]
  by_cases hprevious : view.lastClosed.hash = s.previous
  · by_cases hsize : view.maxSetSize < s.size
    · simp [hprevious, hsize]
    · obtain hs | ⟨position, hdescent⟩ := canonical_or_exists_firstDescent? s.transactions
      · simp [hprevious, hsize, hs, walk_strict_eq_ok_iff hs, Nat.not_lt.1 hsize]
      · have hs : ¬ Canonical s.transactions := not_canonical_of_firstDescent? hdescent
        simp [hprevious, hsize, hs, walk_of_firstDescent? hdescent]
  · simp [hprevious]

/-- Trimming succeeds. -/
theorem trim_eq_dropAll (hrange : s.NoOverflow view policy) :
    s.trim view policy () =
      (.ok (), Walk.dropAll ⟨s.sort, [], (), ()⟩
        ((findings view policy (canonicalOrder s.transactions)).flatMap Finding.members)) := by
  rw [trim_eq_meetAll, Walk.meetAll_trim (noOverflow_iff.1 hrange)]

/-- Trimming removes nothing exactly if nothing is found. -/
theorem removed_walk_trim_eq_nil_iff (hs : Canonical s.transactions)
    (hrange : s.NoOverflow view policy) :
    (s.walk view policy .trim () ()).2.removed = [] ↔
      findings view policy s.transactions = [] := by
  rw [walk_eq_meetAll hs, Walk.meetAll_trim (findings_ne_overflow hs hrange)]
  constructor
  · intro hnil
    rcases hfind : findings view policy s.transactions with _ | ⟨x, xs⟩
    · rfl
    · -- The first member of the first finding is still in the set when it is dropped.
      exfalso
      have hx : x ∈ findings view policy s.transactions := hfind ▸ List.mem_cons_self
      obtain ⟨hne, hsub⟩ := (members_of_mem_findings hx).resolve_left
        (findings_ne_overflow hs hrange x hx)
      obtain ⟨f, fs, hmem⟩ := List.exists_cons_of_ne_nil hne
      have hholds : s.holds f = true :=
        holds_iff.2 (List.mem_map_of_mem (hsub (hmem ▸ List.mem_cons_self)))
      rw [hfind, List.flatMap_cons, hmem, List.cons_append, Walk.dropAll, List.foldl_cons] at hnil
      have hpre := Walk.removed_prefix_dropAll
        ((⟨s, [], (), ()⟩ : Walk Unit Unit).drop f) (fs ++ xs.flatMap Finding.members)
      rw [Walk.dropAll, hnil] at hpre
      simp [Walk.drop, hholds] at hpre
  · intro hnil
    rw [hnil]
    rfl

/-- A strict walk fails for the report that trimming acts on first. -/
theorem head?_notes_trim_of_walk_strict_eq_error (hs : Canonical s.transactions)
    (hrange : s.NoOverflow view policy) {fault : SetFault}
    (herror : (s.walk view policy .strict () ()).1 = .error fault) :
    ∃ r, (s.walk view policy (Handler.noting .trim) () ((), [])).2.handler.2.head? =
      some (r, .drop) ∧ fault = r.fault := by
  rw [walk_noting hrange, reports_of_canonical hs]
  rw [walk_eq_meetAll hs, Walk.meetAll_strict] at herror
  simp only [Walk.noted]
  rcases hfind : findings view policy s.transactions with _ | ⟨⟨r, members⟩ | _, xs⟩
  · simp [hfind] at herror
  · refine ⟨r, ?_, by simpa [hfind] using herror.symm⟩
    cases r <;> rfl
  · exact absurd rfl (findings_ne_overflow hs hrange _ (hfind ▸ List.mem_cons_self))

/-- **The handler's answers never change what a walk reports.** Over a ledger with fixed answers,
and as long as nothing overflows, there is one stream of reports, those of the set. Every handler is
told a first segment of it, which ends with its first abort or is the whole stream. A set in
canonical order is refused exactly if there is an abort, for the violation that was answered so; the
store is never the reason. Trimming therefore always succeeds, and a strict walk fails exactly if
trimming removes something, for what trimming drops first. -/
theorem walk_reports (s : TxSet) (closed : ClosedLedger)
    (load : AccountId → Except StoreFault AccountEntry) (policy : Policy)
    (hrange : s.NoOverflow (.fixed closed load) policy) :
    (∀ (τ : Type) (h : Handler τ) (t : τ),
      let run := s.walk (.fixed closed load) policy h.noting () (t, [])
      let calls := run.2.handler.2
      s.walk (.fixed closed load) policy h () t = (run.1, run.2.withoutNotes) ∧
      UpToAbort (s.reports (.fixed closed load) policy) calls ∧
      (∀ fault, run.1 ≠ .error (.store fault)) ∧
      (isCanonical s.transactions = true →
        (run.1 = .ok () ↔ ∀ c ∈ calls, c.2 ≠ .abort) ∧
        ∀ fault, run.1 = .error fault →
          ∃ r, calls.getLast? = some (r, .abort) ∧ fault = r.fault)) ∧
    (s.trim (.fixed closed load) policy ()).1 = .ok () ∧
    (isCanonical s.transactions = true →
      ((s.walk (.fixed closed load) policy .strict () ()).1 = .ok () ↔
        (s.walk (.fixed closed load) policy .trim () ()).2.removed = []) ∧
      ∀ fault, (s.walk (.fixed closed load) policy .strict () ()).1 = .error fault →
        ∃ r, (s.walk (.fixed closed load) policy
            (Handler.noting .trim) () ((), [])).2.handler.2.head? = some (r, .drop) ∧
          fault = r.fault) := by
  refine ⟨fun τ h t => ?_, by rw [trim_eq_dropAll hrange], fun hcanonical => ?_⟩
  · rw [walk_noting hrange]
    refine ⟨rfl, h.converse_upToAbort _ t, walk_ne_store hrange h t, fun hcanonical => ?_⟩
    have hs : Canonical s.transactions := isCanonical_iff.1 hcanonical
    exact ⟨walk_eq_ok_iff hs hrange h t, fun _ => getLast?_converse_of_walk_eq_error hs hrange⟩
  · have hs : Canonical s.transactions := isCanonical_iff.1 hcanonical
    refine ⟨?_, fun _ => head?_notes_trim_of_walk_strict_eq_error hs hrange⟩
    rw [walk_strict_eq_ok_iff hs, removed_walk_trim_eq_nil_iff hs hrange]

/-- The case of a contested set, which is in canonical order: there are two reports, about the rival
and about the second copy, every handler is told of both unless it gives up, and trimming the set
succeeds. -/
theorem walk_reports_contested :
    let view := LedgerView.fixed Sample.ledger.lastClosed Sample.ledger.load
    let policy := Whitelist.disabled.toPolicy
    Sample.contested.NoOverflow view policy ∧
      (Sample.contested.reports view policy).length = 2 ∧
      (∀ (τ : Type) (h : Handler τ) (t : τ),
        UpToAbort (Sample.contested.reports view policy)
          (Sample.contested.walk view policy h.noting () (t, [])).2.handler.2) ∧
      (Sample.contested.trim view policy ()).1 = .ok () := by
  have hrange := Sample.amountsFit_contested.noOverflow Whitelist.disabled.toPolicy
  rw [LedgerView.ofState] at hrange
  obtain ⟨hcalls, htrim, -⟩ := walk_reports Sample.contested Sample.ledger.lastClosed
    Sample.ledger.load Whitelist.disabled.toPolicy hrange
  exact ⟨hrange, by decide +kernel, fun τ h t => (hcalls τ h t).2.1, htrim⟩

end TxSet

end NextLedger
