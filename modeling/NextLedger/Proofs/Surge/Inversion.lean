import NextLedger.Proofs.Surge.Prefix

/-!
# Surge pricing inverts no priority

A class is ranked, and what is kept of it is cut off the top of the ranking. Full hashes tell which
envelopes stay, so the class is left with a first segment of its ranking, counted with multiplicity
(`map_envelope_part_surge_perm`), and no transaction that goes ranks before one that stays
(`isLE_compare_of_left_of_gone`).

Between two accounts the ranking goes by who **ranks below** whom (`Priority.RanksBelow`), so an
account loses nothing as long as one below it in its class has a transaction left. Within an account
it goes by number and hash (`surge_inverts_no_priority`).
-/

namespace NextLedger

theorem AccountId.order_eq_compareBy : AccountId.order = compareBy id := rfl

theorem Binary64.totalOrder_eq_compareBy : Binary64.totalOrder = compareBy Binary64.rank := rfl

namespace Priority

variable {p : Priority}

/-! ### Accounts that rank below others -/

/-- Whether account `a` ranks below account `b` in its class. The holder ranks above all others.
Among the others a privileged account ranks below those with lower identifiers, and an ordinary one
below those with a higher ratio and, at the same ratio, a lower identifier. -/
def RanksBelow (p : Priority) (a b : AccountId) : Prop :=
  a ≠ b ∧ p.holder ≠ some a ∧
    (p.holder = some b ∨
      if p.privileged then b < a
      else (p.ratio a).totalOrder (p.ratio b) = .lt ∨
        (p.ratio a).totalOrder (p.ratio b) = .eq ∧ b < a)

instance (p : Priority) (a b : AccountId) : Decidable (p.RanksBelow a b) :=
  inferInstanceAs (Decidable (_ ∧ _ ∧ (_ ∨ ite _ _ _)))

/-- Between two accounts, the transactions of the one that ranks below come after. -/
theorem compare_eq_gt_iff_ranksBelow {f g : Frame} (h : f.source ≠ g.source) :
    p.compare f g = .gt ↔ p.RanksBelow f.source g.source := by
  have horder : f.source.order g.source = .gt ↔ g.source < f.source := by
    rw [AccountId.order_eq_compareBy, Std.OrientedCmp.gt_iff_lt, compareBy_eq_lt_iff, id, id]
  have hratio : ∀ x y : Binary64, y.totalOrder x = .gt ↔ x.totalOrder y = .lt := fun x y => by
    rw [Binary64.totalOrder_eq_compareBy, Std.OrientedCmp.gt_iff_lt]
  have htie : ∀ x y : Binary64, y.totalOrder x = .eq ↔ x.totalOrder y = .eq := fun x y => by
    rw [Binary64.totalOrder_eq_compareBy, Std.OrientedCmp.eq_comm]
  rw [compare, RanksBelow, if_neg h]
  by_cases hf : p.holder = some f.source
  · simp [hf]
  · by_cases hg : p.holder = some g.source
    · simp [hg, h]
    · cases hp : p.privileged with
      | true => simp [hf, hg, h, horder]
      | false => simp [hf, hg, h, Ordering.then_eq_gt, hratio, htie, horder]

/-- Of two accounts with transactions, one ranks below the other. -/
theorem ranksBelow_or_ranksBelow {f g : Frame} (h : f.source ≠ g.source) :
    p.RanksBelow f.source g.source ∨ p.RanksBelow g.source f.source := by
  rw [← compare_eq_gt_iff_ranksBelow h, ← compare_eq_gt_iff_ranksBelow h.symm,
    Std.OrientedCmp.gt_iff_lt (a := g)]
  cases hcompare : p.compare f g with
  | gt => exact .inl rfl
  | lt => exact .inr rfl
  | eq => exact absurd (compare_eq_eq_iff.1 hcompare).1 h

end Priority

namespace TxSet

variable {σ : Type} {s : TxSet} {view : LedgerView σ} {policy : Policy}

/-! ### What goes and what stays of a class -/

/-- As long as no two different envelopes share a full hash, a class is left with the envelopes for
which it has places. -/
theorem map_envelope_part_surge_perm (h : view.maxSetSize < s.size)
    (hcoll : ∀ f ∈ s.transactions, ∀ g ∈ s.transactions,
      f.fullHash = g.fullHash → f.envelope = g.envelope) (privileged : Bool) :
    (((s.surge view policy).2.part policy privileged).map Frame.envelope).Perm
      ((s.keptOf view policy privileged).map Frame.envelope) := by
  have hclass : ∀ fs : List Frame,
      (fs.filter fun f => policy.isPrivileged f.source == privileged).map Frame.envelope =
        (fs.map Frame.envelope).filter
          fun e => policy.isPrivileged e.transaction.source == privileged := fun fs => by
    rw [List.filter_map]
    rfl
  rw [part, ← filter_kept, hclass, hclass]
  exact (map_surge_perm h hcoll).filter _

/-- No transaction that goes ranks before one of its class that stays. -/
theorem isLE_compare_of_left_of_gone (h : view.maxSetSize < s.size)
    (hcoll : ∀ f ∈ s.transactions, ∀ g ∈ s.transactions,
      f.fullHash = g.fullHash → f.envelope = g.envelope) {privileged : Bool} {f g : Frame}
    (hg : g ∈ (s.surge view policy).2.part policy privileged)
    (hf : f ∈ s.cutOf view policy privileged) :
    ((s.priority view policy privileged).compare g f).isLE = true := by
  -- One of those kept of the class has the envelope, and stands before `f` in the ranking.
  obtain ⟨g', hg', henvelope⟩ := List.mem_map.1
    ((map_envelope_part_surge_perm h hcoll privileged).subset (List.mem_map_of_mem hg))
  rw [← Priority.compare_ofEnvelope, ← henvelope, Priority.compare_ofEnvelope]
  have hranked := Priority.ranked_sort (s.priority view policy privileged)
    (s.part policy privileged)
  rw [← List.take_append_drop (s.places policy view.maxSetSize privileged)
    (Priority.sort _ _)] at hranked
  exact (List.pairwise_append.1 hranked).2.2 g' hg' f hf

/-- **Surge pricing inverts no priority.** As long as no two different envelopes share a full hash,
a set beyond capacity is left, class by class, with a first segment of the ranking of the class,
counted with multiplicity, and the rest of the ranking goes. So an account of which a transaction
goes leaves nothing of the accounts that rank below it in its class. At most one account of a class
is cut in part, and it loses the last of its transactions by number and hash. -/
theorem surge_inverts_no_priority (s : TxSet) (view : LedgerView σ) (policy : Policy)
    (h : view.maxSetSize < s.size)
    (hcoll : ∀ f ∈ s.transactions, ∀ g ∈ s.transactions,
      f.fullHash = g.fullHash → f.envelope = g.envelope) (privileged : Bool) :
    let p : Priority := ⟨accountFeeRatios view.header s.transactions, privileged, policy.holder⟩
    let ranking := p.sort (s.part policy privileged)
    let gone := (s.surge view policy).1.filter
      fun f => policy.isPrivileged f.source == privileged
    let left := (s.surge view policy).2.part policy privileged
    (∃ n, (left.map Frame.envelope).Perm ((ranking.take n).map Frame.envelope) ∧
      gone = ranking.drop n) ∧
    (∀ f ∈ gone, ∀ a, p.RanksBelow a f.source → ∀ g ∈ left, g.source ≠ a) ∧
    (∀ f ∈ gone, ∀ f' ∈ gone, ∀ g ∈ left, ∀ g' ∈ left,
      f.source = g.source → f'.source = g'.source → f.source = f'.source) ∧
    ∀ f ∈ gone, ∀ g ∈ left, g.source = f.source →
      g.sequence ≤ f.sequence ∧ (g.sequence = f.sequence → g.fullHash ≤ f.fullHash) := by
  intro p ranking gone left
  have hgone : gone = s.cutOf view policy privileged := by
    rw [← filter_cut, ← fst_surge_of_lt h]
  have hle : ∀ f ∈ gone, ∀ g ∈ left, (p.compare g f).isLE = true := fun f hf g hg =>
    isLE_compare_of_left_of_gone h hcoll hg (hgone ▸ hf)
  have hbelow : ∀ f ∈ gone, ∀ a, p.RanksBelow a f.source → ∀ g ∈ left, g.source ≠ a := by
    rintro f hf _ ha g hg rfl
    have hgt := (Priority.compare_eq_gt_iff_ranksBelow ha.1).2 ha
    have := hle f hf g hg
    simp [hgt] at this
  refine ⟨⟨s.places policy view.maxSetSize privileged, ?_, hgone⟩, hbelow, ?_, ?_⟩
  · exact map_envelope_part_surge_perm h hcoll privileged
  · intro f hf f' hf' g hg g' hg' hsame hsame'
    by_contra hne
    -- Whichever of the two ranks below the other would have nothing left.
    rcases Priority.ranksBelow_or_ranksBelow (p := p) hne with hrank | hrank
    · exact hbelow f' hf' f.source hrank g hg hsame.symm
    · exact hbelow f hf f'.source hrank g' hg' hsame'.symm
  · intro f hf g hg hsource
    have hturn := hle f hf g hg
    rw [Priority.compare_of_source_eq hsource, Frame.isLE_sequenceOrder_iff] at hturn
    exact ⟨hturn.1, fun heq => hturn.2 (heq ▸ Int64.le_refl _)⟩

set_option maxRecDepth 100000 in
/-- The case of a crowded set and one place. A transaction of the third account goes, so nothing is
left of the first account, which ranks below the third. -/
theorem nothing_left_below_third :
    let view := LedgerView.fixed (Sample.closed 1) Sample.ledger.load
    let policy := Whitelist.disabled.toPolicy
    let run := Sample.crowded.surge view policy
    view.maxSetSize < Sample.crowded.size ∧
      (∃ n, ((run.2.part policy false).map Frame.envelope).Perm
        (((Sample.crowded.ranking view policy false).take n).map Frame.envelope)) ∧
      ∀ g ∈ run.2.part policy false, g.source ≠ Sample.account 1 := by
  intro view policy run
  have hover : view.maxSetSize < Sample.crowded.size := by decide
  obtain ⟨⟨n, hkept, -⟩, hbelow, -⟩ := surge_inverts_no_priority Sample.crowded view policy hover
    (by decide +kernel) false
  have hgone : Sample.offer 3 200 1 ∈ run.1.filter
      fun f => policy.isPrivileged f.source == false := by decide +kernel
  exact ⟨hover, ⟨n, hkept⟩, hbelow _ hgone (Sample.account 1) (by decide +kernel)⟩

end TxSet

end NextLedger
