import NextLedger.Proofs.Removal
import NextLedger.Proofs.Walk.Findings

/-!
# What a walk does to its set

A walk takes up the transactions of its set one by one, account by account (`Walk.agenda`). On the
way it loads accounts, and asks its handler about a transaction that it has just taken up, or about
an account of which it has taken up all. What all these steps keep is an **invariant** of the walk
(`Walk.Invariant`), and holds at every exit, over any ledger view and with any handler, both of
which may change their answers as they go (`Walk.Invariant.walk`).

A handler's answer touches the set in one way only: it removes transactions that are dropped. So
whatever is kept by removal is kept by a walk (`KeptByRemoval.walk`). Of the algorithms made of a
walk, the check keeps the same; trimming puts the set in canonical order first.
-/

namespace NextLedger

variable {σ τ : Type}

/-! ### Invariants of a walk -/

namespace Walk

/-- The transactions of a set in the order in which a walk takes them up. -/
def agenda (fs : List Frame) : List Frame := (sources fs).flatMap (groupOf fs)

/-- A walk takes up every transaction once. -/
theorem agenda_perm (fs : List Frame) : (agenda fs).Perm fs := by
  refine List.perm_iff_count.2 fun f => ?_
  have hpart : ((sources fs).flatMap (groupOf fs)).filter (fun g => g.source == f.source) =
      if f.source ∈ sources fs then groupOf fs f.source else [] :=
    filter_flatMap_of_source (nodup_sources fs) (fun _ _ hf => (mem_groupOf.1 hf).2) f.source
  rw [← List.count_filter (p := fun g => g.source == f.source) (by simp), agenda, hpart]
  split
  · rw [(groupOf_perm fs f.source).count_eq, List.count_filter (by simp)]
  · rename_i hnone
    rw [List.count_nil, ← List.count_nil (a := f), ← groupOf_eq_nil hnone,
      (groupOf_perm fs f.source).count_eq, List.count_filter (by simp)]

/-- Whether every step of a walk over some transactions keeps what holds of the transactions still
pending and of where the walk stands: loading an account, taking up the next transaction, heeding
the handler about it, and heeding the handler about an account of which nothing is pending. -/
structure Invariant (h : Handler τ) (fs : List Frame) (I : List Frame → Walk σ τ → Prop) :
    Prop where
  load {pending w} (store : σ) : I pending w → I pending { w with store := store }
  take {f pending w} : I (f :: pending) w → I pending w
  sequence {f pending w} (v : SequenceViolation) : v.transaction = f.fullHash →
    I (f :: pending) w → I pending (w.heed [f] (h.onSequence v w.handler))
  affordability {a pending w} (v : AffordabilityViolation) : (∀ f ∈ pending, f.source ≠ a) →
    I pending w → I pending (w.heed (groupOf fs a) (h.onAffordability v (groupOf fs a) w.handler))

namespace Invariant

variable {h : Handler τ} {I : List Frame → Walk σ τ → Prop} {w : Walk σ τ}

section Steps

variable {all pending : List Frame} (hI : Invariant h all I)
include hI

theorem takeAll (fs : List Frame) (hw : I (fs ++ pending) w) : I pending w := by
  induction fs with
  | nil => exact hw
  | cons f fs ih => exact ih (hI.take hw)

variable (view : LedgerView σ)

theorem visit (exempt : Bool) (f : Frame) (t : Tally) (hw : I (f :: pending) w) :
    I pending (Walk.visit view h exempt f t w).2 := by
  rw [visit_eq_obey]
  rcases f.check view t.lastSequence exempt w.store with ⟨_ | reason | _, store⟩
  · exact hI.take (hI.load store hw)
  · exact hI.sequence _ rfl (hI.load store hw)
  · exact hI.take (hI.load store hw)

theorem visitAll (exempt : Bool) (fs : List Frame) (t : Tally) (hw : I (fs ++ pending) w) :
    I pending (Walk.visitAll view h exempt fs t w).2 := by
  induction fs generalizing t w with
  | nil => exact hw
  | cons f fs ih =>
    have hvisit := hI.visit view exempt f t hw
    rw [Walk.visitAll]
    generalize Walk.visit view h exempt f t w = run at hvisit ⊢
    rcases run with ⟨_ | t', w'⟩
    · -- A fault ends the visits, and what is pending is never taken up.
      exact hI.takeAll fs hvisit
    · exact ih t' hvisit

theorem settle (a : AccountId) (t : Tally) (hdone : ∀ f ∈ pending, f.source ≠ a)
    (hw : I pending w) : I pending (Walk.settle view h a (groupOf all a) t w).2 := by
  rw [settle_eq_obey]
  cases t.lastValid with
  | none => exact hw
  | some last =>
    dsimp only
    rcases view.load a w.store with ⟨_ | entry, store⟩
    · exact hI.load store hw
    · dsimp only
      cases view.header.minimumBalance? entry.subEntries with
      | none => exact hI.load store hw
      | some minimum =>
        dsimp only
        split
        · exact hI.load store hw
        · exact hI.affordability _ hdone (hI.load store hw)

theorem account (policy : Policy) (a : AccountId) (hdone : ∀ f ∈ pending, f.source ≠ a)
    (hw : I (groupOf all a ++ pending) w) : I pending (Walk.account view policy h all a w).2 := by
  have hvisits := hI.visitAll view (policy.isPrivileged a) (groupOf all a) .start hw
  rw [Walk.account]
  generalize Walk.visitAll view h (policy.isPrivileged a) (groupOf all a) .start w = run
    at hvisits ⊢
  rcases run with ⟨_ | t, w'⟩
  · exact hvisits
  · exact hI.settle view a t hdone hvisits

theorem accounts (policy : Policy) {as : List AccountId} (has : as.Nodup)
    (hw : I (as.flatMap (groupOf all)) w) : I [] (Walk.accounts view policy h all as w).2 := by
  induction as generalizing w with
  | nil => exact hw
  | cons a as ih =>
    obtain ⟨ha, has⟩ := List.nodup_cons.1 has
    have hdone : ∀ f ∈ as.flatMap (groupOf all), f.source ≠ a := by
      rintro f hf rfl
      obtain ⟨b, hb, hfb⟩ := List.mem_flatMap.1 hf
      exact ha ((mem_groupOf.1 hfb).2 ▸ hb)
    have haccount := hI.account view policy a hdone (by rwa [List.flatMap_cons] at hw)
    rw [Walk.accounts]
    generalize Walk.account view policy h all a w = run at haccount ⊢
    rcases run with ⟨_ | _, w'⟩
    · rw [← List.append_nil (as.flatMap (groupOf all))] at haccount
      exact hI.takeAll _ haccount
    · exact ih has haccount

end Steps

/-- **An invariant holds at every exit.** What holds before a walk, with its whole agenda pending,
and is kept by every step of it holds when it ends, however it ends. -/
theorem walk {s : TxSet} (hI : Invariant h s.transactions I) (view : LedgerView σ) (policy : Policy)
    (store : σ) (t : τ) (hw : I (agenda s.transactions) ⟨s, [], store, t⟩) :
    I [] (s.walk view policy h store t).2 := by
  rw [TxSet.walk]
  split
  · rw [← List.append_nil (agenda _)] at hw
    exact hI.takeAll _ hw
  · exact hI.accounts view policy (nodup_sources _) hw

end Invariant

theorem fullHashes_dropAll (w : Walk σ τ) (fs : List Frame) :
    (w.dropAll fs).set.fullHashes = w.set.fullHashes.diff (fs.map Frame.fullHash) := by
  induction fs generalizing w with
  | nil => rfl
  | cons f fs ih =>
    rw [List.map_cons, List.diff_cons, ← TxSet.fullHashes_remove]
    exact ih (w.drop f)

end Walk

/-! ### What is kept by removal -/

namespace TxSet

namespace KeptByRemoval

variable {P : TxSet → Prop} (hP : KeptByRemoval P)
include hP

theorem dropAll {w : Walk σ τ} (hw : P w.set) (fs : List Frame) : P (w.dropAll fs).set := by
  induction fs generalizing w with
  | nil => exact hw
  | cons f fs ih => exact ih (w := w.drop f) (hP w.set f hw)

theorem heed {w : Walk σ τ} (hw : P w.set) (members : List Frame) (answer : Response × τ) :
    P (w.heed members answer).set := by
  rcases answer with ⟨_ | _ | _, handler⟩
  · exact hw
  · exact hP.dropAll (w := { w with handler := handler }) hw members
  · exact hw

theorem invariant (h : Handler τ) (fs : List Frame) :
    Walk.Invariant h fs fun _ (w : Walk σ τ) => P w.set where
  load _ hw := hw
  take hw := hw
  sequence _ _ hw := hP.heed hw _ _
  affordability _ _ hw := hP.heed hw _ _

variable (view : LedgerView σ) (h : Handler τ)

/-- **What is kept by removal is kept by a walk**, whatever its handler answers and however it
ends. -/
theorem walk {s : TxSet} (hs : P s) (policy : Policy) (store : σ) (handler : τ) :
    P (s.walk view policy h store handler).2.set :=
  (hP.invariant h s.transactions).walk view policy store handler hs

omit h in
theorem check {s : TxSet} (hs : P s) (policy : Policy) (store : σ) :
    P (s.check view policy store).2.set := by
  rw [TxSet.check]
  split_ifs
  · exact hs
  · exact hs
  · exact hP.walk view .strict hs policy store ()

omit h in
theorem trim {s : TxSet} (hs : P s.sort) (policy : Policy) (store : σ) :
    P (s.trim view policy store).2.set :=
  hP.walk view .trim hs policy store ()

end KeptByRemoval

end TxSet

end NextLedger
