import NextLedger.Proofs.Surge
import NextLedger.Proofs.Walk.Effect
import NextLedger.Proofs.Walk.Reports

/-!
# What is removed is accounted for

A walk moves transactions from its set to what it has removed, one full hash for one full hash, so
that both together always have the full hashes of the set at the start, whatever collides
(`perm_fullHashes_heed`).

What a walk removes is told by the answers of its handler alone: the transactions that were dropped
one by one, and with every account that was dropped the rest of its transactions (`missing`). While
no two different envelopes share a full hash, the transactions still pending are all in the set, so
that every drop finds its transaction (`Accounted`). The handler may keep any state and the view may
change its mind or fail at any call. To speak of the answers, the handler notes them; a handler that
notes its answers gives the same walk (`walk_mapHandler`).
-/

namespace NextLedger

variable {σ τ υ : Type}

/-! ### Handlers that keep more -/

/-- Whether a handler answers as another one does on a part of its state. -/
def Handler.Refines (g : Handler υ) (h : Handler τ) (φ : υ → τ) : Prop :=
  ∀ (r : Report) (u : υ), h.answer r (φ u) = ((g.answer r u).1, φ (g.answer r u).2)

theorem Handler.noting_refines (h : Handler τ) : h.noting.Refines h Prod.fst := fun r u => by
  rw [← Prod.mk.eta (p := u), Handler.answer_noting]

namespace Walk

/-- A walk with a part of its handler's state. -/
def mapHandler (φ : υ → τ) (w : Walk σ υ) : Walk σ τ := ⟨w.set, w.removed, w.store, φ w.handler⟩

theorem mapHandler_dropAll (φ : υ → τ) (w : Walk σ υ) (fs : List Frame) :
    (w.dropAll fs).mapHandler φ = (w.mapHandler φ).dropAll fs := by
  rw [mapHandler, mapHandler, dropAll_withHandler w (φ w.handler), handler_dropAll]

theorem obey_mapHandler {α : Type} (φ : υ → τ) (w : Walk σ υ) (members : List Frame)
    (fault : SetFault) (result : α) (answer : Response × υ) :
    (w.mapHandler φ).obey members fault result (answer.1, φ answer.2) =
      ((w.obey members fault result answer).1,
        (w.obey members fault result answer).2.mapHandler φ) := by
  rcases answer with ⟨_ | _ | _, u⟩
  · rfl
  · exact Prod.ext rfl (mapHandler_dropAll φ { w with handler := u } members).symm
  · rfl

section Refines

variable {g : Handler υ} {h : Handler τ} {φ : υ → τ} (hφ : g.Refines h φ) (view : LedgerView σ)
include hφ

theorem visit_mapHandler (exempt : Bool) (f : Frame) (t : Tally) (w : Walk σ υ) :
    visit view h exempt f t (w.mapHandler φ) =
      ((visit view g exempt f t w).1, (visit view g exempt f t w).2.mapHandler φ) := by
  rw [visit_eq_obey, visit_eq_obey, mapHandler]
  dsimp only
  rcases f.check view t.lastSequence exempt w.store with ⟨_ | reason | _, store⟩
  · rfl
  · have hanswer := hφ (.sequence ⟨f.fullHash, f.source, f.sequence, t.lastSequence, reason⟩)
      w.handler
    simp only [Handler.answer] at hanswer
    dsimp only
    rw [hanswer]
    exact obey_mapHandler φ { w with store := store } [f] _ t _
  · rfl

theorem visitAll_mapHandler (exempt : Bool) (fs : List Frame) (t : Tally) (w : Walk σ υ) :
    visitAll view h exempt fs t (w.mapHandler φ) =
      ((visitAll view g exempt fs t w).1, (visitAll view g exempt fs t w).2.mapHandler φ) := by
  induction fs generalizing t w with
  | nil => rfl
  | cons f fs ih =>
    rw [visitAll, visitAll, visit_mapHandler hφ]
    rcases visit view g exempt f t w with ⟨_ | t', w'⟩
    · rfl
    · exact ih t' w'

theorem settle_mapHandler (a : AccountId) (group : List Frame) (t : Tally) (w : Walk σ υ) :
    settle view h a group t (w.mapHandler φ) =
      ((settle view g a group t w).1, (settle view g a group t w).2.mapHandler φ) := by
  rw [settle_eq_obey, settle_eq_obey, mapHandler]
  cases t.lastValid with
  | none => rfl
  | some last =>
    dsimp only
    rcases view.load a w.store with ⟨_ | entry, store⟩
    · rfl
    · dsimp only
      cases view.header.minimumBalance? entry.subEntries with
      | none => rfl
      | some minimum =>
        dsimp only
        split
        · rfl
        · have hanswer := hφ (.affordability
            ⟨a, last.fullHash, entry.balance, t.totalFee, minimum⟩ group) w.handler
          simp only [Handler.answer] at hanswer
          rw [hanswer]
          exact obey_mapHandler φ { w with store := store } group _ () _

theorem accounts_mapHandler (policy : Policy) (fs : List Frame) (as : List AccountId)
    (w : Walk σ υ) :
    accounts view policy h fs as (w.mapHandler φ) =
      ((accounts view policy g fs as w).1, (accounts view policy g fs as w).2.mapHandler φ) := by
  induction as generalizing w with
  | nil => rfl
  | cons a as ih =>
    have haccount : account view policy h fs a (w.mapHandler φ) =
        ((account view policy g fs a w).1, (account view policy g fs a w).2.mapHandler φ) := by
      rw [account, account, visitAll_mapHandler hφ]
      rcases visitAll view g (policy.isPrivileged a) (groupOf fs a) .start w with ⟨_ | t, w'⟩
      · rfl
      · exact settle_mapHandler hφ view a (groupOf fs a) t w'
    rw [accounts, accounts, haccount]
    rcases account view policy g fs a w with ⟨_ | _, w'⟩
    · rfl
    · exact ih w'

/-- **A handler that keeps more gives the same walk.** -/
theorem walk_mapHandler (s : TxSet) (policy : Policy) (store : σ) (u : υ) :
    s.walk view policy h store (φ u) =
      ((s.walk view policy g store u).1, (s.walk view policy g store u).2.mapHandler φ) := by
  rw [TxSet.walk, TxSet.walk]
  cases firstDescent? s.transactions with
  | some position => rfl
  | none => exact accounts_mapHandler hφ view policy _ _ ⟨s, [], store, u⟩

end Refines

/-! ### Nothing is lost -/

/-- Whatever is dropped moves from the set to what is removed, by full hash. -/
theorem perm_fullHashes_drop (w : Walk σ τ) (f : Frame) :
    ((w.drop f).set.fullHashes ++ (w.drop f).removed.map Frame.fullHash).Perm
      (w.set.fullHashes ++ w.removed.map Frame.fullHash) := by
  have hset : (w.drop f).set.fullHashes = w.set.fullHashes.erase f.fullHash :=
    TxSet.fullHashes_remove
  rw [hset]
  by_cases hf : f.fullHash ∈ w.set.fullHashes
  · have hholds : w.set.holds f = true := TxSet.holds_iff.2 hf
    simp only [drop, hholds, if_true, List.map_append, List.map_singleton]
    refine List.Perm.trans ?_ ((List.perm_cons_erase hf).symm.append_right _)
    rw [← List.append_assoc]
    exact List.perm_append_singleton _ _
  · have hholds : ¬ w.set.holds f = true := fun h => hf (TxSet.holds_iff.1 h)
    simp only [drop, hholds, List.erase_of_not_mem hf]
    exact .refl _

theorem perm_fullHashes_dropAll (w : Walk σ τ) (fs : List Frame) :
    ((w.dropAll fs).set.fullHashes ++ (w.dropAll fs).removed.map Frame.fullHash).Perm
      (w.set.fullHashes ++ w.removed.map Frame.fullHash) := by
  induction fs generalizing w with
  | nil => exact .refl _
  | cons f fs ih => exact (ih (w.drop f)).trans (perm_fullHashes_drop w f)

theorem perm_fullHashes_heed (w : Walk σ τ) (members : List Frame) (answer : Response × τ) :
    ((w.heed members answer).set.fullHashes ++
        (w.heed members answer).removed.map Frame.fullHash).Perm
      (w.set.fullHashes ++ w.removed.map Frame.fullHash) := by
  rcases answer with ⟨_ | _ | _, t⟩
  · exact .refl _
  · exact perm_fullHashes_dropAll { w with handler := t } members
  · exact .refl _

/-- Having the full hashes of some list in the set and in what is removed is an invariant. -/
theorem invariant_perm_fullHashes (h : Handler τ) (fs : List Frame) (hashes : List Hash256) :
    Invariant h fs fun _ (w : Walk σ τ) =>
      hashes.Perm (w.set.fullHashes ++ w.removed.map Frame.fullHash) where
  load _ hw := hw
  take hw := hw
  sequence _ _ hw := hw.trans (perm_fullHashes_heed _ _ _).symm
  affordability _ _ hw := hw.trans (perm_fullHashes_heed _ _ _).symm

end Walk

/-! ### What the answers tell -/

/-- The full hashes of what is missing after one more answer: a transaction that is dropped, or
those of an account that is dropped which are not missing yet. -/
def missingAfter (missing : Multiset Hash256) : Report × Response → Multiset Hash256
  | (.sequence v, .drop) => v.transaction ::ₘ missing
  | (.affordability _ group, .drop) =>
    missing + ((group.map Frame.fullHash : Multiset Hash256) - missing)
  | _ => missing

/-- The full hashes of what is missing after some reports and the answers to them. -/
def missing (calls : List (Report × Response)) : Multiset Hash256 := calls.foldl missingAfter 0

theorem missing_concat (calls : List (Report × Response)) (c : Report × Response) :
    missing (calls ++ [c]) = missingAfter (missing calls) c := by
  rw [missing, List.foldl_append]
  rfl

/-- Whether a walk with a noting handler is accounted for: the set together with what its notes tell
is missing has the full hashes of the set at the start, and what is pending is all in the set. -/
structure Accounted (s : TxSet) (pending : List Frame)
    (w : Walk σ (τ × List (Report × Response))) : Prop where
  subset : pending ⊆ s.transactions
  pending_le : (pending.map Frame.fullHash : Multiset Hash256) ≤ w.set.fullHashes
  balance : (w.set.fullHashes : Multiset Hash256) + missing w.handler.2 = s.fullHashes

/-- Where full hashes tell accounts apart, all transactions with the full hash of one in a group are
in the group. -/
theorem count_fullHash_groupOf {fs : List Frame} {a : AccountId} {hash : Hash256}
    (hsource : ∀ f ∈ fs, ∀ g ∈ fs, f.fullHash = g.fullHash → f.source = g.source)
    (hhash : hash ∈ (groupOf fs a).map Frame.fullHash) :
    ((groupOf fs a).map Frame.fullHash).count hash = (fs.map Frame.fullHash).count hash := by
  obtain ⟨g, hg, rfl⟩ := List.mem_map.1 hhash
  obtain ⟨hgs, hga⟩ := mem_groupOf.1 hg
  rw [((groupOf_perm fs a).map Frame.fullHash).count_eq, List.count_eq_countP, List.count_eq_countP,
    List.countP_map, List.countP_map, List.countP_filter]
  refine List.countP_congr fun f hf => ?_
  simp only [Function.comp_apply, beq_iff_eq, Bool.and_eq_true, and_iff_left_iff_imp]
  exact fun heq => (hsource f hf g hgs heq).trans hga

namespace Accounted

variable {s : TxSet} {f : Frame} {pending : List Frame}
  {w w' : Walk σ (τ × List (Report × Response))}

theorem take (hw : Accounted s (f :: pending) w) : Accounted s pending w where
  subset := (List.cons_subset.1 hw.subset).2
  pending_le := (Multiset.le_cons_self _ f.fullHash).trans hw.pending_le
  balance := hw.balance

/-- An answer that leaves the set as it is leaves nothing more missing. -/
theorem of_same_set (hw : Accounted s pending w) (hset : w'.set = w.set)
    (hmissing : missing w'.handler.2 = missing w.handler.2) : Accounted s pending w' where
  subset := hw.subset
  pending_le := hset ▸ hw.pending_le
  balance := by rw [hset, hmissing, hw.balance]

/-- The transaction just taken up is in the set; dropping it takes out one with its full hash. -/
theorem drop (hw : Accounted s (f :: pending) w)
    (hset : w'.set.fullHashes = w.set.fullHashes.erase f.fullHash)
    (hmissing : missing w'.handler.2 = f.fullHash ::ₘ missing w.handler.2) :
    Accounted s pending w' where
  subset := (List.cons_subset.1 hw.subset).2
  pending_le := by
    have hle := Multiset.erase_le_erase f.fullHash hw.pending_le
    rw [hset, ← Multiset.coe_erase]
    simpa using hle
  balance := by
    have hmem : f.fullHash ∈ (w.set.fullHashes : Multiset Hash256) :=
      Multiset.subset_of_le hw.pending_le (by simp)
    rw [hset, hmissing, ← hw.balance, ← Multiset.coe_erase, Multiset.add_cons, ← Multiset.cons_add,
      Multiset.cons_erase hmem]

/-- Dropping an account of which nothing is pending takes out what the set still has of it. -/
theorem dropGroup {a : AccountId}
    (hsource : ∀ f ∈ s.transactions, ∀ g ∈ s.transactions,
      f.fullHash = g.fullHash → f.source = g.source)
    (hdone : ∀ f ∈ pending, f.source ≠ a) (hw : Accounted s pending w)
    (hset : w'.set.fullHashes =
      w.set.fullHashes.diff ((groupOf s.transactions a).map Frame.fullHash))
    (hmissing : missing w'.handler.2 = missing w.handler.2 +
      (((groupOf s.transactions a).map Frame.fullHash : Multiset Hash256) -
        missing w.handler.2)) : Accounted s pending w' where
  subset := hw.subset
  pending_le := by
    rw [hset, ← Multiset.coe_sub, Multiset.le_iff_count]
    intro hash
    have hle := Multiset.le_iff_count.1 hw.pending_le hash
    rw [Multiset.count_sub]
    by_cases hhash : hash ∈ (groupOf s.transactions a).map Frame.fullHash
    · -- Nothing that is pending has the full hash of a transaction of the account.
      obtain ⟨g, hg, rfl⟩ := List.mem_map.1 hhash
      have hnone : g.fullHash ∉ pending.map Frame.fullHash := fun hmem => by
        obtain ⟨f, hf, hfg⟩ := List.mem_map.1 hmem
        refine hdone f hf ((hsource f (hw.subset hf) g (mem_groupOf.1 hg).1 hfg).trans ?_)
        exact (mem_groupOf.1 hg).2
      rw [Multiset.coe_count, List.count_eq_zero_of_not_mem hnone]
      exact Nat.zero_le _
    · rw [Multiset.coe_count _ ((groupOf _ _).map _), List.count_eq_zero_of_not_mem hhash]
      exact hle
  balance := by
    rw [hset, hmissing, ← hw.balance, ← Multiset.coe_sub]
    ext hash
    have hall := congrArg (Multiset.count hash) hw.balance
    simp only [Multiset.count_add, Multiset.count_sub, Multiset.coe_count] at hall ⊢
    by_cases hhash : hash ∈ (groupOf s.transactions a).map Frame.fullHash
    · have hgroup := count_fullHash_groupOf hsource hhash
      rw [TxSet.fullHashes, TxSet.fullHashes] at *
      omega
    · rw [List.count_eq_zero_of_not_mem hhash]
      omega

end Accounted

/-- As long as full hashes tell accounts apart, being accounted for is an invariant. -/
theorem accounted_invariant {s : TxSet} (h : Handler τ)
    (hsource : ∀ f ∈ s.transactions, ∀ g ∈ s.transactions,
      f.fullHash = g.fullHash → f.source = g.source) :
    Walk.Invariant h.noting s.transactions (@Accounted σ τ s) where
  load _ hw := hw.of_same_set rfl rfl
  take hw := hw.take
  sequence {f pending w} v hv hw := by
    have hnoted := h.answer_noting (.sequence v) w.handler.1 w.handler.2
    simp only [Handler.answer] at hnoted
    rw [hnoted]
    rcases h.onSequence v w.handler.1 with ⟨_ | _ | _, t⟩
    · exact hw.take.of_same_set rfl (missing_concat _ _)
    · refine hw.drop TxSet.fullHashes_remove ((missing_concat _ _).trans ?_)
      rw [missingAfter, hv]
    · exact hw.take.of_same_set rfl (missing_concat _ _)
  affordability {a pending w} v hdone hw := by
    have hnoted := h.answer_noting (.affordability v (groupOf s.transactions a)) w.handler.1
      w.handler.2
    simp only [Handler.answer] at hnoted
    rw [hnoted]
    rcases h.onAffordability v (groupOf s.transactions a) w.handler.1 with ⟨_ | _ | _, t⟩
    · exact hw.of_same_set rfl (missing_concat _ _)
    · refine hw.dropGroup hsource hdone (Walk.fullHashes_dropAll _ _) ?_
      rw [Walk.heed, Walk.handler_dropAll, missing_concat, missingAfter]
    · exact hw.of_same_set rfl (missing_concat _ _)

theorem accounted_start {s : TxSet} (store : σ) (t : τ) :
    Accounted s (Walk.agenda s.transactions) ⟨s, [], store, (t, [])⟩ where
  subset := (Walk.agenda_perm _).subset
  pending_le := (Multiset.coe_eq_coe.2 ((Walk.agenda_perm _).map Frame.fullHash)).le
  balance := add_zero _

namespace TxSet

/-- Surge pricing leaves and returns, by full hash, what there was. -/
theorem perm_fullHashes_surge (s : TxSet) (view : LedgerView σ) (policy : Policy) :
    s.fullHashes.Perm
      ((s.surge view policy).2.fullHashes ++ (s.surge view policy).1.map Frame.fullHash) := by
  rcases Nat.lt_or_ge view.maxSetSize s.size with h | h
  · rw [fst_surge_of_lt h]
    have hall := (kept_append_cut_perm s view policy).map Frame.fullHash
    rw [List.map_append] at hall
    exact hall.symm.trans ((fullHashes_surge_perm h).symm.append_right _)
  · rw [surge_of_le h, List.map_nil, List.append_nil]

/-- What is missing from a set after a walk, while no two different envelopes share a full hash. -/
theorem exists_missing {s : TxSet} (view : LedgerView σ) (policy : Policy) (h : Handler τ)
    (store : σ) (t : τ)
    (hcoll : ∀ f ∈ s.transactions, ∀ g ∈ s.transactions,
      f.fullHash = g.fullHash → f.envelope = g.envelope) :
    let noted := s.walk view policy h.noting store (t, [])
    ∃ gone : List Frame, s.transactions.Perm (noted.2.set.transactions ++ gone) ∧
      (gone.map Frame.fullHash : Multiset Hash256) = missing noted.2.handler.2 := by
  have hsource : ∀ f ∈ s.transactions, ∀ g ∈ s.transactions,
      f.fullHash = g.fullHash → f.source = g.source := fun f hf g hg heq =>
    Frame.source_eq_of_envelope_eq (hcoll f hf g hg heq)
  have hend := (accounted_invariant h hsource).walk view policy store (t, [])
    (accounted_start store t)
  have hsub : (s.walk view policy h.noting store (t, [])).2.set.transactions.Sublist
      s.transactions :=
    (keptByRemoval_sublist s.transactions).walk view h.noting (.refl _) policy store (t, [])
  obtain ⟨gone, hgone⟩ := hsub.exists_perm_append
  refine ⟨gone, hgone, ?_⟩
  have hhashes : (s.fullHashes : Multiset Hash256) =
      (s.walk view policy h.noting store (t, [])).2.set.fullHashes +
        (gone.map Frame.fullHash : Multiset Hash256) := by
    rw [Multiset.coe_add, Multiset.coe_eq_coe, fullHashes, fullHashes, ← List.map_append]
    exact hgone.map _
  exact (add_left_cancel (hend.balance.trans hhashes)).symm

/-- **Nothing is lost, added or moved by a filter.** Over any view and with any handler, both of
which may change their answers as they go, a walk ends with a part of its set in the order that it
had, on top of the same ledger. The full hashes of what is left and of what a walk that ends well
returns are those that there were. As long as no two different envelopes share a full hash, what is
missing at any exit are the transactions that the handler dropped one by one, and the rest of each
account that it dropped. Surge pricing leaves and returns what there was in the same way. -/
theorem only_drops_are_missing (s : TxSet) (view : LedgerView σ) (policy : Policy) (h : Handler τ)
    (store : σ) (t : τ) :
    let run := s.walk view policy h store t
    let left := run.2.set
    let surge := s.surge view policy
    (left.transactions.Sublist s.transactions ∧ left.previous = s.previous ∧
      (run.1 = .ok () →
        s.fullHashes.Perm (left.fullHashes ++ run.2.removed.map Frame.fullHash)) ∧
      ∃ calls : List (Report × Response),
        s.walk view policy h.noting store (t, []) =
          (run.1, ⟨left, run.2.removed, run.2.store, (run.2.handler, calls)⟩) ∧
        ((∀ f ∈ s.transactions, ∀ g ∈ s.transactions,
            f.fullHash = g.fullHash → f.envelope = g.envelope) →
          ∃ gone : List Frame, s.transactions.Perm (left.transactions ++ gone) ∧
            (gone.map Frame.fullHash : Multiset Hash256) = missing calls)) ∧
    surge.2.transactions.Sublist s.transactions ∧ surge.2.previous = s.previous ∧
      s.fullHashes.Perm (surge.2.fullHashes ++ surge.1.map Frame.fullHash) := by
  have hnoted := Walk.walk_mapHandler h.noting_refines view s policy store (t, [])
  refine ⟨⟨?_, ?_, fun _ => ?_, (s.walk view policy h.noting store (t, [])).2.handler.2, ?_, ?_⟩,
    surge_sublist s view policy, previous_surge s view policy, perm_fullHashes_surge s view policy⟩
  · exact (keptByRemoval_sublist s.transactions).walk view h (.refl _) policy store t
  · exact (keptByRemoval_previous s.previous).walk view h rfl policy store t
  · refine
      (Walk.invariant_perm_fullHashes h s.transactions s.fullHashes).walk view policy store t ?_
    rw [List.map_nil, List.append_nil]
  · rw [hnoted]
    rfl
  · intro hcoll
    rw [hnoted]
    exact exists_missing view policy h store t hcoll

set_option maxRecDepth 100000 in
/-- The case of a contested set, which is trimmed where it stands: what is gone is what was dropped,
and no two different envelopes share a full hash. -/
theorem drops_of_contested :
    let run :=
      Sample.contested.walk (.ofState Sample.ledger) Whitelist.disabled.toPolicy .trim () ()
    run.1 = .ok () ∧
      Sample.contested.fullHashes.Perm
        (run.2.set.fullHashes ++ run.2.removed.map Frame.fullHash) ∧
      ∃ (calls : List (Report × Response)) (gone : List Frame),
        Sample.contested.transactions.Perm (run.2.set.transactions ++ gone) ∧
          (gone.map Frame.fullHash : Multiset Hash256) = missing calls := by
  intro run
  have hok : run.1 = .ok () := by
    have hrange := Sample.amountsFit_contested.noOverflow Whitelist.disabled.toPolicy
    have hcanonical : Canonical Sample.contested.transactions :=
      isCanonical_iff.1 (by decide +kernel)
    simp only [run, walk_eq_meetAll hcanonical,
      Walk.meetAll_trim (findings_ne_overflow hcanonical hrange)]
  obtain ⟨⟨-, -, hall, calls, -, hmissing⟩, -⟩ := only_drops_are_missing Sample.contested
    (.ofState Sample.ledger) Whitelist.disabled.toPolicy .trim () ()
  obtain ⟨gone, hgone⟩ := hmissing (by decide +kernel)
  exact ⟨hok, hall hok, calls, gone, hgone⟩

end TxSet

end NextLedger
