import NextLedger.Proofs.Priority
import NextLedger.Proofs.Surge.Capacity

/-!
# Rankings

Whatever accounts count for, numbers or not, priority is a total order of transactions up to those
with the same source, number and full hash. Two transactions of different accounts stand to each
other as their accounts do (`compare_of_source_ne`), so nothing of another account can stand between
two of one account: in transactions that are ranked in whatever way, each account has a **block**
(`Ranked.exists_block`). And there is one way only to rank given transactions, so a ranking does not
depend on how they came (`ranking_is_total`).
-/

namespace NextLedger

/-- In a list along which a relation holds, and under which nothing else comes between what `p`
picks, what `p` picks stands in one piece. -/
theorem exists_block_of_pairwise {α : Type} {R : α → α → Prop} {p : α → Bool} {xs : List α}
    (hbetween : ∀ x y z, R x y → R y z → p x = true → p z = true → p y = true)
    (h : xs.Pairwise R) :
    ∃ before after, xs = before ++ xs.filter p ++ after ∧ ∀ x ∈ before ++ after, p x = false := by
  induction xs with
  | nil => exact ⟨[], [], rfl, by simp⟩
  | cons x xs ih =>
    obtain ⟨hhead, htail⟩ := List.pairwise_cons.1 h
    obtain ⟨before, after, hxs, hother⟩ := ih htail
    cases hx : p x with
    | false =>
      refine ⟨x :: before, after, ?_, ?_⟩
      · rw [List.filter_cons_of_neg (by simp [hx]), List.cons_append, List.cons_append, ← hxs]
      · simpa [hx] using hother
    | true =>
      rw [List.filter_cons_of_pos hx]
      cases before with
      | nil => exact ⟨[], after, congrArg (x :: ·) hxs, hother⟩
      | cons y before =>
        -- `y` would come between `x` and anything picked later, so nothing is.
        have hnone : ∀ z ∈ xs, p z = false := fun z hz => by
          by_contra hz'
          have hpicked : z ∈ xs.filter p := List.mem_filter.2 ⟨hz, by simpa using hz'⟩
          have hxy : R x y := hhead y (hxs ▸ by simp)
          rw [hxs, List.cons_append, List.cons_append, List.pairwise_cons] at htail
          have hyz : R y z := htail.1 z (by simp [hpicked])
          have hy : p y = true := hbetween x y z hxy hyz hx (List.mem_filter.1 hpicked).2
          simp [hother y (by simp)] at hy
        have hpicked : xs.filter p = [] := List.filter_eq_nil_iff.2 fun z hz => by simp [hnone z hz]
        exact ⟨[], xs, by rw [hpicked]; rfl, hnone⟩

namespace Priority

variable {p : Priority}

/-- Between accounts, priority goes by the accounts alone. -/
theorem compare_of_source_ne {f f' g : Frame} (hne : f.source ≠ g.source)
    (hsource : f.source = f'.source) : p.compare f g = p.compare f' g := by
  have hne' : f'.source ≠ g.source := hsource ▸ hne
  rw [compare, compare, if_neg hne, if_neg hne', hsource]

/-- Nothing of another account ranks between two transactions of one account. -/
theorem source_eq_of_between {f g h : Frame} (hfg : (p.compare f g).isLE = true)
    (hgh : (p.compare g h).isLE = true) (hsource : f.source = h.source) :
    g.source = f.source := by
  by_contra hne
  have hlt : p.compare f g = .lt := by
    cases hcompare : p.compare f g with
    | lt => rfl
    | eq => exact absurd (compare_eq_eq_iff.1 hcompare).1.symm hne
    | gt => simp [hcompare] at hfg
  -- `h` stands to `g` as `f` does, since the two are of one account.
  rw [compare_of_source_ne (Ne.symm hne) hsource] at hlt
  rw [Std.OrientedCmp.gt_iff_lt.2 hlt] at hgh
  exact absurd hgh (by decide)

/-- In ranked transactions each account has a block. -/
theorem Ranked.exists_block {fs : List Frame} (h : p.Ranked fs) (a : AccountId) :
    ∃ before after, fs = before ++ fs.filter (fun f => f.source == a) ++ after ∧
      ∀ f ∈ before ++ after, f.source ≠ a := by
  obtain ⟨before, after, hfs, hother⟩ := exists_block_of_pairwise
    (p := fun f : Frame => f.source == a) (fun f g h hfg hgh hf hh => by
      rw [beq_iff_eq] at *
      exact (source_eq_of_between hfg hgh (hf.trans hh.symm)).trans hf) h
  exact ⟨before, after, hfs, fun f hf => by simpa using hother f hf⟩

/-- **Priority is a total order, whatever accounts count for.** For all ratios, any holder and
either class, a transaction ranks with itself, the answer turns round when two transactions change
places, and each of the three answers goes on from pair to pair, as does not coming after. Only
transactions of one account with one number and one full hash rank alike. In ranked transactions
every account has a block. Ranking gives ranked transactions, and there is one way only to rank
given ones: as long as no two different envelopes share a full hash, the envelopes stand in the same
order however the transactions came and in whatever way they were ranked. On one network it is the
same list. -/
theorem ranking_is_total (p : Priority) :
    (∀ f, p.compare f f = .eq) ∧
    (∀ f g, p.compare g f = (p.compare f g).swap) ∧
    (∀ o f g h, p.compare f g = o → p.compare g h = o → p.compare f h = o) ∧
    (∀ f g h, (p.compare f g).isLE = true → (p.compare g h).isLE = true →
      (p.compare f h).isLE = true) ∧
    (∀ f g, p.compare f g = .eq ↔
      f.source = g.source ∧ f.sequence = g.sequence ∧ f.fullHash = g.fullHash) ∧
    (∀ fs, p.Ranked fs → ∀ a, ∃ before after,
      fs = before ++ fs.filter (fun f => f.source == a) ++ after ∧
        ∀ f ∈ before ++ after, f.source ≠ a) ∧
    (∀ fs, (p.sort fs).Perm fs ∧ p.Ranked (p.sort fs)) ∧
    ∀ fs gs, fs.Perm gs →
      (∀ f ∈ fs, ∀ g ∈ fs, f.fullHash = g.fullHash → f.envelope = g.envelope) →
      (p.sort fs).map Frame.envelope = (p.sort gs).map Frame.envelope ∧
      (p.Ranked gs → (p.sort fs).map Frame.envelope = gs.map Frame.envelope) ∧
      ∀ network, (∀ f ∈ fs, f.network = network) →
        p.sort fs = p.sort gs ∧ (p.Ranked gs → p.sort fs = gs) := by
  refine ⟨fun f => Std.ReflCmp.compare_self, fun f g => Std.OrientedCmp.eq_swap,
    fun o f g h => trans_of_same, fun f g h => Std.TransCmp.isLE_trans,
    fun f g => compare_eq_eq_iff, fun fs h a => h.exists_block a,
    fun fs => ⟨sort_perm p fs, ranked_sort p fs⟩, fun fs gs hperm hcoll => ?_⟩
  -- The ranked list is the only one, and ranking the same transactions another time gives one.
  have honly : ∀ hs, hs.Perm gs → p.Ranked hs →
      (p.sort fs).map Frame.envelope = hs.map Frame.envelope := fun hs hhs hranked => by
    refine (ranked_sort p fs).map_envelope_eq (fun f hf g hg => ?_) hranked
      ((sort_perm p fs).trans (hperm.trans hhs.symm))
    exact hcoll f ((sort_perm p fs).subset hf) g ((sort_perm p fs).subset hg)
  have hsort := honly (p.sort gs) (sort_perm p gs) (ranked_sort p gs)
  refine ⟨hsort, honly gs (.refl gs), fun network hnetwork => ?_⟩
  -- On one network a list of frames is made again from its envelopes.
  have hagain : ∀ hs : List Frame, hs.Perm gs →
      (hs.map Frame.envelope).map (Frame.ofEnvelope network) = hs := fun hs hhs =>
    map_ofEnvelope_map_envelope fun f hf => hnetwork f (hperm.symm.subset (hhs.subset hf))
  have hfs := hagain (p.sort fs) ((sort_perm p fs).trans hperm)
  constructor
  · rw [← hfs, hsort, hagain _ (sort_perm p gs)]
  · intro hranked
    rw [← hfs, honly gs (.refl gs) hranked, hagain gs (.refl gs)]

end Priority

namespace Sample

/-- Ordinary accounts that count for no number and for negative zero, another that has no ratio, and
a holder. -/
def uneven : Priority :=
  ⟨.ofList [(account 1, .undefined), (account 2, ⟨0x8000000000000000⟩)], false, some (account 3)⟩

end Sample

namespace Priority

set_option maxRecDepth 100000 in
/-- The case of a crowded set and of the same transactions the other way round: they are ranked
alike, and the first account, of which two transactions are the same, has a block. -/
theorem ranking_of_crowded :
    let fs := Sample.crowded.transactions
    Sample.uneven.sort fs = Sample.uneven.sort fs.reverse ∧
      ∃ before after, Sample.uneven.sort fs = before ++
          (Sample.uneven.sort fs).filter (fun f => f.source == Sample.account 1) ++ after ∧
        ∀ f ∈ before ++ after, f.source ≠ Sample.account 1 := by
  intro fs
  obtain ⟨-, -, -, -, -, hblock, hsort, hunique⟩ := ranking_is_total Sample.uneven
  obtain ⟨-, -, hsame⟩ := hunique fs fs.reverse (List.reverse_perm fs).symm (by decide +kernel)
  exact ⟨(hsame .zero (by decide)).1, hblock _ (hsort fs).2 (Sample.account 1)⟩

end Priority

end NextLedger
