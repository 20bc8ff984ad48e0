import NextLedger.Proofs.Surge.Capacity
import NextLedger.Proofs.Surge.Ratios

/-!
# Surge pricing and the order of arrival

Unlike trimming, surge pricing does not begin with canonical order: it goes through the transactions
as they came. The classes, the places and the order within an account do not depend on how they
came, so all that can is how ordinary accounts stand to each other, by the ratios that they count
for. These come out the same in every order if the set is **unmixed**, which is to say that no
ordinary account offers nothing in one transaction and something in another. Then the same envelopes
are removed in the same order, and the same are left (`surge_in_any_order`).

In a set that is not unmixed the order of arrival decides: a ratio of zero is forgotten if another
one follows it, and wins if it comes last (`surge_depends_on_arrival`).
-/

namespace NextLedger

namespace TxSet

variable {σ : Type} {s t : TxSet} {view : LedgerView σ} {policy : Policy}

/-- Whether no ordinary account offers nothing in one transaction and something in another. -/
def Unmixed (s : TxSet) (policy : Policy) : Prop :=
  ∀ f ∈ s.transactions, ∀ g ∈ s.transactions, f.source = g.source →
    policy.isPrivileged f.source = false → (f.transaction.fee = 0 ↔ g.transaction.fee = 0)

instance (s : TxSet) (policy : Policy) : Decidable (s.Unmixed policy) :=
  inferInstanceAs (Decidable (∀ f ∈ s.transactions, ∀ g ∈ s.transactions, f.source = g.source →
    policy.isPrivileged f.source = false → (f.transaction.fee = 0 ↔ g.transaction.fee = 0)))

/-! ### Two orders of arrival -/

theorem part_perm (hperm : s.transactions.Perm t.transactions) (policy : Policy)
    (privileged : Bool) : (s.part policy privileged).Perm (t.part policy privileged) :=
  hperm.filter _

theorem places_of_perm (hperm : s.transactions.Perm t.transactions) (policy : Policy)
    (capacity : Nat) (privileged : Bool) :
    s.places policy capacity privileged = t.places policy capacity privileged := by
  have hlength : ∀ class', (s.part policy class').length = (t.part policy class').length :=
    fun class' => (part_perm hperm policy class').length_eq
  have hreserved : s.reserved policy capacity = t.reserved policy capacity := by
    rw [reserved, reserved, hlength]
  cases privileged with
  | true => rw [places, places, hreserved]
  | false => rw [places, places, hreserved, hlength]

/-- In an unmixed set accounts have the same merits in every order of arrival. -/
theorem merit_of_perm (hperm : s.transactions.Perm t.transactions) (hunmixed : s.Unmixed policy)
    {privileged : Bool} {f : Frame} (hf : f ∈ s.part policy privileged) :
    (s.priority view policy privileged).merit f.source =
      (t.priority view policy privileged).merit f.source := by
  cases privileged with
  | true => rfl
  | false =>
    have hordinary : policy.isPrivileged f.source = false := (mem_part.1 hf).2
    have hratio : (s.priority view policy false).ratio f.source =
        (t.priority view policy false).ratio f.source := by
      refine ratio_of_perm (fun g hg h hh hgf hhf => ?_) hperm
      exact hunmixed g hg h hh (hgf.trans hhf.symm) (hgf ▸ hordinary)
    rw [Priority.merit, Priority.merit, hratio]
    rfl

/-- An unmixed set is ranked alike in every order of arrival. -/
theorem map_envelope_ranking_of_perm (hperm : s.transactions.Perm t.transactions)
    (hcoll : ∀ f ∈ s.transactions, ∀ g ∈ s.transactions,
      f.fullHash = g.fullHash → f.envelope = g.envelope)
    (hunmixed : s.Unmixed policy) (view : LedgerView σ) (privileged : Bool) :
    (s.ranking view policy privileged).map Frame.envelope =
      (t.ranking view policy privileged).map Frame.envelope := by
  refine Priority.map_envelope_sort_eq ?_ (fun f hf => merit_of_perm hperm hunmixed hf)
    (part_perm hperm policy privileged)
  exact fun f hf g hg => hcoll f (mem_part.1 hf).1 g (mem_part.1 hg).1

/-- Of an unmixed set the same envelopes are kept, and the same cut, in every order of arrival. -/
theorem map_envelope_kept_and_cut_of_perm (hperm : s.transactions.Perm t.transactions)
    (hcoll : ∀ f ∈ s.transactions, ∀ g ∈ s.transactions,
      f.fullHash = g.fullHash → f.envelope = g.envelope)
    (hunmixed : s.Unmixed policy) (view : LedgerView σ) :
    (s.kept view policy).map Frame.envelope = (t.kept view policy).map Frame.envelope ∧
      (s.cut view policy).map Frame.envelope = (t.cut view policy).map Frame.envelope := by
  have hranking : ∀ privileged, (s.ranking view policy privileged).map Frame.envelope =
      (t.ranking view policy privileged).map Frame.envelope :=
    map_envelope_ranking_of_perm hperm hcoll hunmixed view
  have hplaces := places_of_perm hperm policy view.maxSetSize
  constructor
  · simp only [kept, keptOf, List.map_append, List.map_take, hranking, hplaces]
  · simp only [cut, cutOf, List.map_append, List.map_drop, hranking, hplaces]

/-- The same, of what is removed and of what is left. -/
theorem map_envelope_surge_of_perm (hperm : s.transactions.Perm t.transactions)
    (hcoll : ∀ f ∈ s.transactions, ∀ g ∈ s.transactions,
      f.fullHash = g.fullHash → f.envelope = g.envelope)
    (hunmixed : s.Unmixed policy) (view : LedgerView σ) :
    (s.surge view policy).1.map Frame.envelope = (t.surge view policy).1.map Frame.envelope ∧
      ((s.surge view policy).2.transactions.map Frame.envelope).Perm
        ((t.surge view policy).2.transactions.map Frame.envelope) := by
  have hsize : s.size = t.size := hperm.length_eq
  rcases Nat.lt_or_ge view.maxSetSize s.size with h | h
  · have h' : view.maxSetSize < t.size := hsize ▸ h
    have hcoll' : ∀ f ∈ t.transactions, ∀ g ∈ t.transactions,
        f.fullHash = g.fullHash → f.envelope = g.envelope := fun f hf g hg =>
      hcoll f (hperm.symm.subset hf) g (hperm.symm.subset hg)
    obtain ⟨hkept, hcut⟩ := map_envelope_kept_and_cut_of_perm hperm hcoll hunmixed view
    refine ⟨?_, ?_⟩
    · rw [fst_surge_of_lt h, fst_surge_of_lt h', hcut]
    · refine (map_surge_perm h hcoll).trans ?_
      rw [hkept]
      exact (map_surge_perm h' hcoll').symm
  · rw [surge_of_le h, surge_of_le (hsize ▸ h)]
    exact ⟨rfl, hperm.map _⟩

/-- **Of an unmixed set surge pricing leaves and removes the same in every order of arrival.** Two
sets of the same transactions, of which no two different envelopes share a full hash, lose the same
envelopes in the same order, over any ledger and under any policy. They keep the same envelopes,
counted with multiplicity. On one network these are the same transactions. -/
theorem surge_in_any_order (s t : TxSet) (view : LedgerView σ) (policy : Policy)
    (hperm : s.transactions.Perm t.transactions)
    (hcoll : ∀ f ∈ s.transactions, ∀ g ∈ s.transactions,
      f.fullHash = g.fullHash → f.envelope = g.envelope)
    (hunmixed : s.Unmixed policy) :
    let one := s.surge view policy
    let other := t.surge view policy
    one.1.map Frame.envelope = other.1.map Frame.envelope ∧
    (one.2.transactions.map Frame.envelope).Perm (other.2.transactions.map Frame.envelope) ∧
    ∀ network, (∀ f ∈ s.transactions, f.network = network) →
      one.1 = other.1 ∧ one.2.transactions.Perm other.2.transactions := by
  intro one other
  obtain ⟨hremoved, hleft⟩ := map_envelope_surge_of_perm hperm hcoll hunmixed view
  refine ⟨hremoved, hleft, fun network hnetwork => ?_⟩
  -- On one network a list of frames is made again from its envelopes.
  have hone : ∀ fs : List Frame, fs ⊆ s.transactions →
      (fs.map Frame.envelope).map (Frame.ofEnvelope network) = fs := fun fs hfs =>
    map_ofEnvelope_map_envelope fun f hf => hnetwork f (hfs hf)
  have hother : ∀ fs : List Frame, fs ⊆ t.transactions →
      (fs.map Frame.envelope).map (Frame.ofEnvelope network) = fs := fun fs hfs =>
    hone fs (List.Subset.trans hfs hperm.symm.subset)
  constructor
  · rw [← hone one.1 (fst_surge_subset s view policy),
      ← hother other.1 (fst_surge_subset t view policy), hremoved]
  · rw [← hone one.2.transactions (surge_sublist s view policy).subset,
      ← hother other.2.transactions (surge_sublist t view policy).subset]
    exact hleft.map _

set_option maxRecDepth 100000 in
/-- The case of a crowded set, and of the same transactions the other way round. -/
theorem crowded_in_both_orders :
    let view := LedgerView.ofState Sample.ledger
    let policy := Sample.firstPrivileged.toPolicy
    let reversed := ofFrames .zero Sample.crowded.transactions.reverse
    (Sample.crowded.surge view policy).1 = (reversed.surge view policy).1 := by
  intro view policy reversed
  have hperm : Sample.crowded.transactions.Perm reversed.transactions :=
    (List.reverse_perm _).symm
  obtain ⟨-, -, hsame⟩ := surge_in_any_order Sample.crowded reversed view policy hperm
    (by decide +kernel) (by decide)
  exact (hsame .zero (by decide)).1

/-! ### Mixed offers -/

end TxSet

namespace Sample

/-- Two transactions of an account that offer nothing and something, and one of another account. -/
def mixed : TxSet := .ofFrames .zero [offer 1 0 1, offer 1 300 2, offer 2 200 1]

/-- The same transactions, of which the first two came the other way round. -/
def mixedLate : TxSet := .ofFrames .zero [offer 1 300 2, offer 1 0 1, offer 2 200 1]

end Sample

namespace TxSet

set_option maxRecDepth 100000 in
/-- **Of other sets what surge pricing removes depends on the order of arrival.** With two places
for three ordinary transactions, an account that offers nothing and three times the least fee stands
for the latter if that came last, and the other account loses its place. If it came first, the
account stands for nothing and loses a place itself. -/
theorem surge_depends_on_arrival :
    ¬ ∀ (closed : ClosedLedger) (load : AccountId → Except StoreFault AccountEntry)
        (w : Whitelist) (s t : TxSet), s.transactions.Perm t.transactions →
      (∀ f ∈ s.transactions, ∀ g ∈ s.transactions,
        f.fullHash = g.fullHash → f.envelope = g.envelope) →
      (s.surge (.fixed closed load) w.toPolicy).2.transactions.Perm
          (t.surge (.fixed closed load) w.toPolicy).2.transactions ∧
        (s.surge (.fixed closed load) w.toPolicy).1.Perm
          (t.surge (.fixed closed load) w.toPolicy).1 := by
  intro h
  have hperm : Sample.mixed.transactions.Perm Sample.mixedLate.transactions := .swap _ _ _
  obtain ⟨-, hremoved⟩ := h (Sample.closed 2) Sample.ledger.load .disabled Sample.mixed
    Sample.mixedLate hperm (by decide +kernel)
  have hone : (Sample.mixed.surge (.fixed (Sample.closed 2) Sample.ledger.load)
      Whitelist.disabled.toPolicy).1.map Frame.source = [Sample.account 2] := by decide +kernel
  have hother : (Sample.mixedLate.surge (.fixed (Sample.closed 2) Sample.ledger.load)
      Whitelist.disabled.toPolicy).1.map Frame.source = [Sample.account 1] := by decide +kernel
  have hsources := hremoved.map Frame.source
  rw [hone, hother, List.singleton_perm_singleton] at hsources
  exact absurd hsources (by decide)

end TxSet

end NextLedger
