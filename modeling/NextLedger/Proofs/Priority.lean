import NextLedger.Proofs.Turns
import NextLedger.TxSet.Priority

/-!
# Priority is an order

Which of two transactions ranks first goes by different things from pair to pair: by number and hash
within an account, and between accounts by who the holder is, by what they offer, or by their
identifiers. All the same it is one comparison by keys in turn (`compare_eq_compareLex`): by the
**merit** of the account, which says how the account stands in its class, by the identifier of the
account, and by number and hash. So priority is consistent, and keeps every account in one piece,
in its turns (`filter_source_sort`).

A ranking depends on the order of arrival only through the merits. Two rankings of the same
transactions by the same merits list the same envelopes (`map_envelope_sort_eq`).
-/

namespace NextLedger

namespace Priority

variable {p : Priority}

/-! ### Merit -/

/-- How an account stands in its class, the lower the better. The holder comes before all others;
among privileged accounts there is no other difference, and among ordinary ones the higher ratio is
the better. -/
def merit (p : Priority) (a : AccountId) : WithBot ℤ :=
  if p.holder = some a then ⊥
  else if p.privileged then (0 : ℤ)
  else (-(p.ratio a).rank : ℤ)

theorem merit_of_holder {a : AccountId} (h : p.holder = some a) : p.merit a = ⊥ := if_pos h

theorem bot_lt_merit {a : AccountId} (h : p.holder ≠ some a) : ⊥ < p.merit a := by
  rw [merit, if_neg h]
  split <;> exact WithBot.bot_lt_coe _

/-- Between accounts of which neither is the holder's, merit goes by the ratios of ordinary ones. -/
theorem compareBy_merit {f g : Frame} (hf : p.holder ≠ some f.source)
    (hg : p.holder ≠ some g.source) :
    compareBy (fun f => p.merit f.source) f g =
      if p.privileged then .eq else (p.ratio g.source).totalOrder (p.ratio f.source) := by
  simp only [compareBy, merit, if_neg hf, if_neg hg]
  split
  · simp
  · simp only [WithBot.coe_lt_coe, neg_lt_neg_iff, Binary64.totalOrder]

/-- **Priority compares by keys**: by merit, then by account, then by number and hash. -/
theorem compare_eq_compareLex (p : Priority) :
    p.compare = compareLex (compareBy fun f => p.merit f.source)
      (compareLex (compareBy Frame.source) Frame.sequenceOrder) := by
  funext f g
  have hsame : f.source = g.source → compareBy (fun f => p.merit f.source) f g = .eq :=
    fun h => compareBy_eq_eq_iff.2 (congrArg p.merit h)
  rw [compareLex, compareLex, compare]
  by_cases hsource : f.source = g.source
  · rw [if_pos hsource, hsame hsource, compareBy_eq_eq_iff.2 hsource]
    rfl
  · -- Different accounts are told apart by their identifiers at the latest.
    have hne : compareBy Frame.source f g ≠ .eq := fun h => hsource (compareBy_eq_eq_iff.1 h)
    have haccount : (compareBy Frame.source f g).then (f.sequenceOrder g) =
        f.source.order g.source := by
      cases horder : compareBy Frame.source f g with
      | eq => exact absurd horder hne
      | lt => exact horder.symm
      | gt => exact horder.symm
    rw [if_neg hsource, haccount]
    by_cases hf : p.holder = some f.source
    · have hg : p.holder ≠ some g.source := fun h => hsource (Option.some.inj (hf.symm.trans h))
      have hlt : compareBy (fun f => p.merit f.source) f g = .lt := by
        rw [compareBy_eq_lt_iff, merit_of_holder hf]
        exact bot_lt_merit hg
      rw [if_pos hf, hlt]
      rfl
    · rw [if_neg hf]
      by_cases hg : p.holder = some g.source
      · have hgt : compareBy (fun f => p.merit f.source) f g = .gt := by
          rw [Std.OrientedCmp.gt_iff_lt, compareBy_eq_lt_iff, merit_of_holder hg]
          exact bot_lt_merit hf
        rw [if_pos hg, hgt]
        rfl
      · rw [if_neg hg, compareBy_merit hf hg]
        split <;> rfl

instance (p : Priority) : Std.TransCmp p.compare := compare_eq_compareLex p ▸ inferInstance

theorem compare_of_source_eq {f g : Frame} (h : f.source = g.source) :
    p.compare f g = f.sequenceOrder g := if_pos h

/-- Only transactions of one account with one number and one full hash rank alike. -/
theorem compare_eq_eq_iff {f g : Frame} :
    p.compare f g = .eq ↔
      f.source = g.source ∧ f.sequence = g.sequence ∧ f.fullHash = g.fullHash := by
  rw [compare_eq_compareLex, Frame.sequenceOrder_eq_compareLex]
  simp only [compareLex, Ordering.then_eq_eq, compareBy_eq_eq_iff]
  exact ⟨fun ⟨_, h⟩ => h, fun h => ⟨congrArg p.merit h.1, h⟩⟩

/-- Priorities under which accounts have the same merits rank alike. -/
theorem compare_congr {q : Priority} {f g : Frame} (hf : p.merit f.source = q.merit f.source)
    (hg : p.merit g.source = q.merit g.source) : p.compare f g = q.compare f g := by
  simp only [compare_eq_compareLex, compareLex, compareBy, hf, hg]

/-- Frames with one envelope compare alike, so that the comparison is one of envelopes. -/
theorem compare_ofEnvelope (p : Priority) (f g : Frame) :
    p.compare (.ofEnvelope .zero f.envelope) (.ofEnvelope .zero g.envelope) = p.compare f g := by
  have hhash : ∀ f : Frame, (Frame.ofEnvelope .zero f.envelope).fullHash = f.fullHash :=
    fun f => f.fullHash_eq_sha256.symm
  simp only [compare, Frame.sequenceOrder, hhash]
  rfl

/-! ### Ranking -/

theorem sort_perm (p : Priority) (fs : List Frame) : (p.sort fs).Perm fs :=
  Sorting.sortBy_perm _ fs

/-- **A ranking keeps turns.** The transactions of an account stand in it in the account's turns. -/
theorem filter_source_sort (p : Priority) (fs : List Frame) (a : AccountId) :
    (p.sort fs).filter (fun f => f.source == a) = turnsOf fs a := by
  have hpick : (p.sort fs).filter (fun f => f.source == a) =
      p.sort (fs.filter fun f => f.source == a) :=
    Sorting.filter_sortBy_cmp p.compare _ fs
  rw [hpick]
  refine Sorting.sortBy_congr fun f hf g hg => ?_
  have hfa : f.source = a := by simpa using (List.mem_filter.1 hf).2
  have hga : g.source = a := by simpa using (List.mem_filter.1 hg).2
  rw [compare_of_source_eq (hfa.trans hga.symm)]

/-- Whether transactions stand by descending priority. -/
def Ranked (p : Priority) (fs : List Frame) : Prop :=
  fs.Pairwise fun f g => (p.compare f g).isLE = true

theorem ranked_sort (p : Priority) (fs : List Frame) : p.Ranked (p.sort fs) :=
  Sorting.pairwise_isLE_sortBy p.compare fs

/-- Transactions can be ranked in one way only, as far as their envelopes go, as long as no two
different ones share a full hash. -/
theorem Ranked.map_envelope_eq {fs gs : List Frame}
    (hcoll : ∀ f ∈ fs, ∀ g ∈ fs, f.fullHash = g.fullHash → f.envelope = g.envelope)
    (hf : p.Ranked fs) (hg : p.Ranked gs) (h : fs.Perm gs) :
    fs.map Frame.envelope = gs.map Frame.envelope := by
  have hmap : ∀ hs : List Frame, p.Ranked hs →
      (hs.map Frame.envelope).Pairwise fun d e =>
        (p.compare (.ofEnvelope .zero d) (.ofEnvelope .zero e)).isLE = true := fun hs hle =>
    List.pairwise_map.2 (hle.imp fun h => by rwa [compare_ofEnvelope])
  refine List.Perm.eq_of_pairwise (fun d e hd he hde hed => ?_) (hmap fs hf) (hmap gs hg)
    (h.map _)
  obtain ⟨f, hf, rfl⟩ := List.mem_map.1 hd
  obtain ⟨g, hg, rfl⟩ := List.mem_map.1 he
  rw [compare_ofEnvelope] at hde hed
  have heq : p.compare f g = .eq := Std.OrientedCmp.isLE_antisymm hde hed
  exact hcoll f hf g (h.symm.subset hg) (compare_eq_eq_iff.1 heq).2.2

/-- The same transactions, ranked by the same merits, are the same envelopes in the same order, as
long as no two different ones share a full hash. -/
theorem map_envelope_sort_eq {q : Priority} {fs gs : List Frame}
    (hcoll : ∀ f ∈ fs, ∀ g ∈ fs, f.fullHash = g.fullHash → f.envelope = g.envelope)
    (hmerit : ∀ f ∈ fs, p.merit f.source = q.merit f.source) (h : fs.Perm gs) :
    (p.sort fs).map Frame.envelope = (q.sort gs).map Frame.envelope := by
  have hsame : ∀ f ∈ q.sort gs, p.merit f.source = q.merit f.source := fun f hf =>
    hmerit f (h.symm.subset ((sort_perm q gs).subset hf))
  have hq : p.Ranked (q.sort gs) := (ranked_sort q gs).imp_of_mem fun hf hg hle => by
    rwa [compare_congr (hsame _ hf) (hsame _ hg)]
  refine (ranked_sort p fs).map_envelope_eq (fun f hf g hg => ?_) hq
    ((sort_perm p fs).trans (h.trans (sort_perm q gs).symm))
  exact hcoll f ((sort_perm p fs).subset hf) g ((sort_perm p fs).subset hg)

end Priority

end NextLedger
