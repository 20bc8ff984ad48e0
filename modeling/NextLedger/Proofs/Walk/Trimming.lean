import NextLedger.Proofs.Walk.Effect
import NextLedger.Proofs.Walk.Reports

/-!
# What trimming leaves

Trimming drops the members of every finding, and nothing else. As long as no two different
transactions of the set share a full hash, this takes place on the transactions themselves: each
drop removes one copy of the transaction, what is removed and what is left make up the set
(`perm_trim`), and of an account that can pay exactly the **accepted** transactions are left, of any
other none (`groupOf_trim`).

A walk over what is left finds nothing more (`findings_trim`): the accepted transactions are
accepted again, one after the other, and the account has the same to pay.
-/

namespace NextLedger

variable {τ : Type}

/-! ### Dropping on the transactions -/

namespace Walk

@[simp] theorem previous_dropAll (w : Walk Unit τ) (fs : List Frame) :
    (w.dropAll fs).set.previous = w.set.previous :=
  (TxSet.keptByRemoval_previous w.set.previous).dropAll rfl fs

theorem memo_dropAll {w : Walk Unit τ} (hw : w.set.memo = none) (fs : List Frame) :
    (w.dropAll fs).set.memo = none :=
  TxSet.keptByRemoval_memo.dropAll hw fs

theorem dropAll_sublist (w : Walk Unit τ) (fs : List Frame) :
    (w.dropAll fs).set.transactions.Sublist w.set.transactions :=
  (TxSet.keptByRemoval_sublist w.set.transactions).dropAll (.refl _) fs

variable {all : List Frame} {w : Walk Unit τ} {fs : List Frame}

/-- Without collisions, what is dropped is taken out of the list of transactions one copy at a
time. -/
theorem transactions_dropAll (hcoll : NoCollision all) (hw : w.set.transactions ⊆ all)
    (hfs : fs ⊆ all) : (w.dropAll fs).set.transactions = w.set.transactions.diff fs := by
  induction fs generalizing w with
  | nil => rfl
  | cons f fs ih =>
    obtain ⟨hf, htail⟩ := List.cons_subset.1 hfs
    have hdrop : (w.drop f).set.transactions = w.set.transactions.erase f :=
      TxSet.transactions_remove hcoll hw hf
    have hsub : (w.drop f).set.transactions ⊆ all :=
      fun g hg => hw (TxSet.remove_sublist.subset hg)
    rw [List.diff_cons, ← hdrop]
    exact ih hsub htail

/-- Dropping a transaction moves it, if it is there, to what is removed. -/
theorem perm_drop {f : Frame} (hcoll : NoCollision all) (hw : w.set.transactions ⊆ all)
    (hf : f ∈ all) :
    ((w.drop f).removed ++ (w.drop f).set.transactions).Perm
      (w.removed ++ w.set.transactions) := by
  have hdrop : (w.drop f).set.transactions = w.set.transactions.erase f :=
    TxSet.transactions_remove hcoll hw hf
  rw [hdrop]
  by_cases hmem : f ∈ w.set.transactions
  · have hholds : w.set.holds f = true := (TxSet.holds_iff_mem hcoll hw hf).2 hmem
    simp only [drop, hholds, if_true, List.append_assoc]
    exact (List.perm_cons_erase hmem).symm.append_left _
  · have hholds : ¬ w.set.holds f = true := fun h => hmem ((TxSet.holds_iff_mem hcoll hw hf).1 h)
    simp only [drop, hholds, List.erase_of_not_mem hmem]
    exact .refl _

/-- What is removed and what is left make up what there was. -/
theorem perm_dropAll (hcoll : NoCollision all) (hw : w.set.transactions ⊆ all) (hfs : fs ⊆ all) :
    ((w.dropAll fs).removed ++ (w.dropAll fs).set.transactions).Perm
      (w.removed ++ w.set.transactions) := by
  induction fs generalizing w with
  | nil => exact .refl _
  | cons f fs ih =>
    obtain ⟨hf, htail⟩ := List.cons_subset.1 hfs
    have hsub : (w.drop f).set.transactions ⊆ all :=
      fun g hg => hw (TxSet.remove_sublist.subset hg)
    exact (ih hsub htail).trans (perm_drop hcoll hw hf)

end Walk

/-! ### Accepted and rejected -/

section Accepted

variable {view : LedgerView Unit} {policy : Policy} {exempt : Bool} {fs : List Frame}

/-- What is accepted is accepted again. -/
theorem accepted_accepted (view : LedgerView Unit) (exempt : Bool) (last : SequenceNumber)
    (fs : List Frame) :
    accepted view exempt last (accepted view exempt last fs) = accepted view exempt last fs := by
  induction fs generalizing last with
  | nil => rfl
  | cons f fs ih =>
    by_cases hvalid : f.verdict view exempt last = .valid
    · rw [accepted_cons_of_valid hvalid, accepted_cons_of_valid hvalid, ih]
    · rw [accepted_cons_of_ne_valid hvalid, ih]

/-- Nothing is found among what is accepted. -/
theorem rejections_accepted (view : LedgerView Unit) (exempt : Bool) (last : SequenceNumber)
    (fs : List Frame) : rejections view exempt last (accepted view exempt last fs) = [] := by
  induction fs generalizing last with
  | nil => rfl
  | cons f fs ih =>
    by_cases hvalid : f.verdict view exempt last = .valid
    · rw [accepted_cons_of_valid hvalid, rejections_cons_of_valid hvalid, ih]
    · rw [accepted_cons_of_ne_valid hvalid, ih]

/-- Every transaction of a group is either accepted or the member of a finding. -/
theorem accepted_append_rejections_perm {last : SequenceNumber}
    (hrange : ∀ x ∈ rejections view exempt last fs, x ≠ .overflow) :
    (accepted view exempt last fs ++
      (rejections view exempt last fs).flatMap Finding.members).Perm fs := by
  induction fs generalizing last with
  | nil => exact .refl _
  | cons f fs ih =>
    simp only [rejections] at hrange
    cases hverdict : f.verdict view exempt last with
    | valid =>
      simp only [hverdict] at hrange
      simp only [accepted, rejections, hverdict]
      exact (ih hrange).cons f
    | invalid reason =>
      simp only [hverdict] at hrange
      simp only [accepted, rejections, hverdict, List.flatMap_cons]
      exact List.perm_middle.trans ((ih (List.forall_mem_cons.1 hrange).2).cons f)
    | overflow =>
      simp only [hverdict] at hrange
      exact absurd rfl (List.forall_mem_cons.1 hrange).1

/-- Whether an account can pay does not depend on what would go if it could not. -/
theorem settlement_eq_nil_iff {a : AccountId} {group group' : List Frame} {t : Tally} :
    settlement view a group t = [] ↔ settlement view a group' t = [] := by
  rcases settlement_cases view a t with h | h | ⟨report, h⟩ <;> simp [h]

/-- An account that cannot pay loses its whole group. -/
theorem flatMap_members_settlement {a : AccountId} {group : List Frame} {t : Tally}
    (hrange : ∀ x ∈ settlement view a group t, x ≠ .overflow) :
    (settlement view a group t).flatMap Finding.members =
      if settlement view a group t = [] then [] else group := by
  rcases settlement_cases view a t with h | h | ⟨report, h⟩
  · simp [h]
  · simp [h] at hrange
  · simp [h, Finding.members]

/-- The transactions of an account that trimming leaves: those accepted, if the account can pay
for them. -/
def survivors (view : LedgerView Unit) (policy : Policy) (fs : List Frame) (a : AccountId) :
    List Frame :=
  if settlement view a (groupOf fs a) (finalTally view policy fs a) = [] then
    accepted view (policy.isPrivileged a) 0 (groupOf fs a)
  else []

theorem survivors_sublist (view : LedgerView Unit) (policy : Policy) (fs : List Frame)
    (a : AccountId) : (survivors view policy fs a).Sublist (groupOf fs a) := by
  rw [survivors]
  split
  · exact accepted_sublist view _ _ _
  · exact List.nil_sublist _

/-- An account's group less the members of its findings is what survives, also in what is told of
the transactions, such as their full hashes. -/
theorem map_groupOf_sub_members {β : Type} [DecidableEq β] (tell : Frame → β) {a : AccountId}
    (hrange : ∀ x ∈ accountFindings view policy fs a, x ≠ .overflow) :
    ((groupOf fs a).map tell : Multiset β) -
        (((accountFindings view policy fs a).flatMap Finding.members).map tell : Multiset β) =
      ((survivors view policy fs a).map tell : Multiset β) := by
  simp only [accountFindings, List.mem_append] at hrange
  have hgroup := Multiset.coe_eq_coe.2
    ((accepted_append_rejections_perm fun x hx => hrange x (.inl hx)).map tell)
  rw [accountFindings, List.flatMap_append,
    flatMap_members_settlement fun x hx => hrange x (.inr hx), survivors, List.map_append,
    ← Multiset.coe_add]
  split
  · -- The account can pay: only what is rejected goes.
    rw [← hgroup, List.map_append, ← Multiset.coe_add, List.map_nil, Multiset.coe_nil, add_zero,
      Multiset.add_sub_cancel_right]
  · -- It cannot: the whole group goes, once more than what is rejected.
    rw [List.map_nil, Multiset.coe_nil]
    exact tsub_eq_zero_of_le (Multiset.le_add_left _ _)

/-- An account's group less the members of its findings is what survives. -/
theorem groupOf_sub_members {a : AccountId}
    (hrange : ∀ x ∈ accountFindings view policy fs a, x ≠ .overflow) :
    (groupOf fs a : Multiset Frame) -
        ((accountFindings view policy fs a).flatMap Finding.members : Multiset Frame) =
      (survivors view policy fs a : Multiset Frame) := by
  simpa only [List.map_id] using map_groupOf_sub_members id hrange

end Accepted

/-! ### Trimming a set -/

theorem coe_filter_source (fs : List Frame) (a : AccountId) :
    (fs.filter (fun f => f.source == a) : Multiset Frame) =
      (fs : Multiset Frame).filter fun f => f.source = a := rfl

namespace TxSet

variable {s : TxSet} {view : LedgerView Unit} {policy : Policy}

/-- What trimming drops. -/
def drops (s : TxSet) (view : LedgerView Unit) (policy : Policy) : List Frame :=
  (findings view policy (canonicalOrder s.transactions)).flatMap Finding.members

theorem drops_subset (hrange : s.NoOverflow view policy) :
    s.drops view policy ⊆ canonicalOrder s.transactions := by
  intro f hf
  obtain ⟨x, hx, hf⟩ := List.mem_flatMap.1 hf
  exact ((members_of_mem_findings hx).resolve_left (noOverflow_iff.1 hrange x hx)).2 hf

/-- What trimming drops of one account is found at that account. -/
theorem filter_drops (a : AccountId) :
    (s.drops view policy).filter (fun f => f.source == a) =
      if a ∈ sources (canonicalOrder s.transactions) then
        (accountFindings view policy (canonicalOrder s.transactions) a).flatMap Finding.members
      else [] := by
  rw [drops, findings, List.flatMap_assoc]
  refine filter_flatMap_of_source (nodup_sources _) (fun b f hf => ?_) a
  obtain ⟨x, hx, hf⟩ := List.mem_flatMap.1 hf
  rcases members_of_mem_accountFindings hx with rfl | ⟨-, hsub⟩
  · simp [Finding.members] at hf
  · exact (hsub f hf).2

/-- Trimming a set in canonical order in which nothing is found removes nothing. -/
theorem trim_of_findings_eq_nil (hs : Canonical s.transactions)
    (hnone : findings view policy s.transactions = []) :
    s.trim view policy () = (.ok (), ⟨s.sort, [], (), ()⟩) := by
  rw [trim_eq_meetAll, canonicalOrder_of_canonical hs, hnone]
  rfl

/-- The set that trimming leaves. -/
def trimmed (s : TxSet) (view : LedgerView Unit) (policy : Policy) : TxSet :=
  (s.trim view policy ()).2.set

theorem trimmed_eq (hrange : s.NoOverflow view policy) :
    s.trimmed view policy = (Walk.dropAll (⟨s.sort, [], (), ()⟩ : Walk Unit Unit)
      (s.drops view policy)).set := by
  rw [trimmed, trim_eq_dropAll hrange, drops]

@[simp] theorem previous_trimmed (hrange : s.NoOverflow view policy) :
    (s.trimmed view policy).previous = s.previous := by
  rw [trimmed_eq hrange, Walk.previous_dropAll, sort]

theorem memo_trimmed (hrange : s.NoOverflow view policy) :
    (s.trimmed view policy).memo = none := by
  rw [trimmed_eq hrange]
  exact Walk.memo_dropAll rfl _

theorem trimmed_sublist (hrange : s.NoOverflow view policy) :
    (s.trimmed view policy).transactions.Sublist (canonicalOrder s.transactions) := by
  rw [trimmed_eq hrange]
  exact Walk.dropAll_sublist _ _

theorem size_trimmed_le (hrange : s.NoOverflow view policy) :
    (s.trimmed view policy).size ≤ s.size := by
  have hlength := (trimmed_sublist hrange).length_le
  rwa [(canonicalOrder_perm _).length_eq] at hlength

theorem canonical_trimmed (hrange : s.NoOverflow view policy) :
    Canonical (s.trimmed view policy).transactions :=
  List.Pairwise.sublist (trimmed_sublist hrange) (canonical_canonicalOrder _)

/-- Of each account the survivors are left, as far as full hashes tell: it is enough that they tell
envelopes apart, whatever the networks of the frames. -/
theorem map_fullHash_filter_trimmed_perm
    (hcoll : ∀ f ∈ s.transactions, ∀ g ∈ s.transactions,
      f.fullHash = g.fullHash → f.envelope = g.envelope)
    (hrange : s.NoOverflow view policy) (a : AccountId) :
    (((s.trimmed view policy).transactions.filter fun f => f.source == a).map
      Frame.fullHash).Perm
        ((survivors view policy (canonicalOrder s.transactions) a).map Frame.fullHash) := by
  classical
  -- A full hash belongs to the account if a transaction of the account has it.
  let own : Hash256 → Prop := fun h => ∃ f ∈ s.transactions, f.fullHash = h ∧ f.source = a
  have hmem : ∀ {f}, f ∈ canonicalOrder s.transactions → f ∈ s.transactions :=
    fun hf => (canonicalOrder_perm s.transactions).subset hf
  have hown : ∀ fs : List Frame, fs ⊆ canonicalOrder s.transactions →
      ((fs.filter fun f => f.source == a).map Frame.fullHash : Multiset Hash256) =
        (fs.map Frame.fullHash : Multiset Hash256).filter own := by
    intro fs hfs
    rw [Multiset.filter_coe, List.filter_map]
    refine congrArg (fun l : List Frame => (l.map Frame.fullHash : Multiset Hash256))
      (List.filter_congr fun f hf => ?_)
    simp only [Function.comp, beq_eq_decide]
    refine decide_eq_decide.2 ⟨fun hfa => ⟨f, hmem (hfs hf), rfl, hfa⟩, ?_⟩
    rintro ⟨g, hg, hhash, rfl⟩
    exact (Frame.source_eq_of_envelope_eq (hcoll g hg f (hmem (hfs hf)) hhash)).symm
  have hgroup := (groupOf_perm (canonicalOrder s.transactions) a).map Frame.fullHash
  have hleft : (s.trimmed view policy).fullHashes =
      ((canonicalOrder s.transactions).map Frame.fullHash).diff
        ((s.drops view policy).map Frame.fullHash) := by
    rw [trimmed_eq hrange]
    exact Walk.fullHashes_dropAll _ _
  rw [← Multiset.coe_eq_coe, hown _ (trimmed_sublist hrange).subset, ← fullHashes, hleft,
    ← Multiset.coe_sub, Multiset.filter_sub, ← hown _ (List.Subset.refl _),
    ← hown _ (drops_subset hrange), filter_drops, ← Multiset.coe_eq_coe.2 hgroup]
  by_cases ha : a ∈ sources (canonicalOrder s.transactions)
  · rw [if_pos ha]
    refine map_groupOf_sub_members _ fun x hx => ?_
    exact noOverflow_iff.1 hrange x (List.mem_flatMap.2 ⟨a, ha, hx⟩)
  · have hnil := groupOf_eq_nil ha
    have hsurvivors := List.sublist_nil.1 (hnil ▸ survivors_sublist view policy _ a)
    rw [if_neg ha, hnil, hsurvivors]
    rfl

section Distinct

variable (hcoll : NoCollision s.transactions) (hrange : s.NoOverflow view policy)
include hcoll hrange

omit hrange in
theorem noCollision_canonicalOrder : NoCollision (canonicalOrder s.transactions) :=
  hcoll.subset (canonicalOrder_perm _).subset

theorem transactions_trimmed :
    (s.trimmed view policy).transactions =
      (canonicalOrder s.transactions).diff (s.drops view policy) := by
  rw [trimmed_eq hrange]
  exact Walk.transactions_dropAll (noCollision_canonicalOrder hcoll)
    (List.Subset.refl _) (drops_subset hrange)

/-- What trimming removes and what it leaves make up the set. -/
theorem perm_trim :
    ((s.trim view policy ()).2.removed ++ (s.trimmed view policy).transactions).Perm
      s.transactions := by
  rw [trimmed, trim_eq_dropAll hrange]
  exact (Walk.perm_dropAll (w := ⟨s.sort, [], (), ()⟩) (noCollision_canonicalOrder hcoll)
    (List.Subset.refl _) (drops_subset hrange)).trans (canonicalOrder_perm _)

/-- Of each account the survivors are left. -/
theorem filter_trimmed_perm (a : AccountId) :
    ((s.trimmed view policy).transactions.filter fun f => f.source == a).Perm
      (survivors view policy (canonicalOrder s.transactions) a) := by
  have hgroup := groupOf_perm (canonicalOrder s.transactions) a
  rw [← Multiset.coe_eq_coe, coe_filter_source, transactions_trimmed hcoll hrange,
    ← Multiset.coe_sub, Multiset.filter_sub, ← coe_filter_source, ← coe_filter_source,
    filter_drops, ← Multiset.coe_eq_coe.2 hgroup]
  by_cases ha : a ∈ sources (canonicalOrder s.transactions)
  · rw [if_pos ha]
    refine groupOf_sub_members fun x hx => ?_
    exact noOverflow_iff.1 hrange x (List.mem_flatMap.2 ⟨a, ha, hx⟩)
  · have hnil := groupOf_eq_nil ha
    have hsurvivors := List.sublist_nil.1 (hnil ▸ survivors_sublist view policy _ a)
    rw [if_neg ha, hnil, hsurvivors]
    rfl

/-- **What trimming leaves.** The group of an account is left as its survivors, in walk order. -/
theorem groupOf_trimmed (a : AccountId) :
    groupOf (s.trimmed view policy).transactions a =
      survivors view policy (canonicalOrder s.transactions) a := by
  -- Both sides have the same members and are in walk order, which leaves one list.
  have hperm := (groupOf_perm _ a).trans (filter_trimmed_perm hcoll hrange a)
  have hgroup := pairwise_groupOf (canonical_canonicalOrder s.transactions) a
  refine eq_of_perm_of_walkOrder (hcoll.subset fun f hf => ?_)
    (pairwise_groupOf (canonical_trimmed hrange) a)
    (hgroup.sublist (survivors_sublist view policy _ a)) hperm
  exact (canonicalOrder_perm _).subset ((trimmed_sublist hrange).subset (mem_groupOf.1 hf).1)

/-- A walk finds nothing in what trimming leaves. -/
theorem findings_trimmed : findings view policy (s.trimmed view policy).transactions = [] := by
  refine List.flatMap_eq_nil_iff.2 fun a ha => ?_
  -- An account that occurs in what is left has survivors, so it can pay for what it has accepted.
  have hne : survivors view policy (canonicalOrder s.transactions) a ≠ [] := by
    obtain ⟨f, hf, hfa⟩ := mem_sources.1 ha
    rw [← groupOf_trimmed hcoll hrange a]
    exact List.ne_nil_of_mem (mem_groupOf.2 ⟨hf, hfa⟩)
  have hpays : settlement view a (groupOf (canonicalOrder s.transactions) a)
      (finalTally view policy (canonicalOrder s.transactions) a) = [] := by
    by_contra hpays
    exact hne (if_neg hpays)
  have hgroup : groupOf (s.trimmed view policy).transactions a =
      accepted view (policy.isPrivileged a) 0 (groupOf (canonicalOrder s.transactions) a) := by
    rw [groupOf_trimmed hcoll hrange, survivors, if_pos hpays]
  rw [accountFindings, hgroup, rejections_accepted, List.nil_append, finalTally, hgroup,
    accepted_accepted]
  exact settlement_eq_nil_iff.1 hpays

end Distinct

end TxSet

end NextLedger
