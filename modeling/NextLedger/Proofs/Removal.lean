import NextLedger.Proofs.Orders

/-!
# Removal by full hash

A transaction is taken out of a set by its full hash: the first with that hash goes. On the list of
full hashes this is the removal of one element, whatever collides. Among transactions of which no
two different ones share a full hash, it is the removal of one copy of the transaction itself.

Several algorithms change a set by removals alone, one after the other. What is **kept by removal**
of one transaction (`KeptByRemoval`) is kept by them.
-/

namespace NextLedger

namespace TxSet

variable {s : TxSet} {f : Frame}

/-- The full hashes of a set, in its current order. -/
def fullHashes (s : TxSet) : List Hash256 := s.transactions.map Frame.fullHash

theorem remove_sublist : (s.remove f).transactions.Sublist s.transactions := List.eraseP_sublist

theorem fullHashes_remove : (s.remove f).fullHashes = s.fullHashes.erase f.fullHash := by
  rw [fullHashes, fullHashes, List.erase_eq_eraseP', List.eraseP_map]
  rfl

theorem holds_iff : s.holds f = true ↔ f.fullHash ∈ s.fullHashes := by
  simp [holds, fullHashes]

/-- Removing by full hash removes the transaction itself where nothing else has its full hash. -/
theorem eraseP_fullHash_eq_erase {fs : List Frame}
    (h : ∀ g ∈ fs, g.fullHash = f.fullHash → g = f) :
    fs.eraseP (fun g => g.fullHash == f.fullHash) = fs.erase f := by
  induction fs with
  | nil => rfl
  | cons g fs ih =>
    obtain ⟨hg, hfs⟩ := List.forall_mem_cons.1 h
    by_cases hgf : g = f
    · simp [hgf]
    · have hne : g.fullHash ≠ f.fullHash := fun heq => hgf (hg heq)
      rw [List.eraseP_cons_of_neg (by simpa using hne), List.erase_cons_tail (by simpa using hgf),
        ih hfs]

/-- Without collisions, removal takes out one copy of the transaction itself. -/
theorem transactions_remove {fs : List Frame} (hcoll : NoCollision fs)
    (hs : s.transactions ⊆ fs) (hf : f ∈ fs) :
    (s.remove f).transactions = s.transactions.erase f :=
  eraseP_fullHash_eq_erase fun g hg => hcoll g (hs hg) f hf

theorem holds_iff_mem {fs : List Frame} (hcoll : NoCollision fs) (hs : s.transactions ⊆ fs)
    (hf : f ∈ fs) : s.holds f = true ↔ f ∈ s.transactions := by
  rw [holds_iff, fullHashes, List.mem_map]
  constructor
  · rintro ⟨g, hg, hgf⟩
    exact hcoll g (hs hg) f hf hgf ▸ hg
  · intro hf
    exact ⟨f, hf, rfl⟩

/-! ### What removal keeps -/

/-- Whether removing a transaction keeps what is true of a set. -/
def KeptByRemoval (P : TxSet → Prop) : Prop := ∀ s f, P s → P (s.remove f)

theorem keptByRemoval_previous (previous : Hash256) :
    KeptByRemoval fun s => s.previous = previous := fun _ _ h => h

theorem keptByRemoval_sublist (fs : List Frame) :
    KeptByRemoval fun s => s.transactions.Sublist fs := fun _ _ h => remove_sublist.trans h

theorem keptByRemoval_memo : KeptByRemoval fun s => s.memo = none := fun _ _ _ => rfl

/-! ### Removing several -/

theorem KeptByRemoval.removeEach {P : TxSet → Prop} (hP : KeptByRemoval P) (fs : List Frame)
    {s : TxSet} (hs : P s) : P (s.removeEach fs).2 := by
  induction fs generalizing s with
  | nil => exact hs
  | cons f fs ih => exact ih (hP s f hs)

theorem fullHashes_removeEach (fs : List Frame) (s : TxSet) :
    (removeEach fs s).2.fullHashes = s.fullHashes.diff (fs.map Frame.fullHash) := by
  induction fs generalizing s with
  | nil => rfl
  | cons f fs ih =>
    rw [List.map_cons, List.diff_cons, ← fullHashes_remove]
    exact ih (s.remove f)

/-- Removing transactions that are all there, counted with multiplicity by full hash, finds each of
them. -/
theorem fst_removeEach {fs : List Frame} {s : TxSet}
    (h : (fs.map Frame.fullHash).Subperm s.fullHashes) : (removeEach fs s).1 = fs := by
  induction fs generalizing s with
  | nil => rfl
  | cons f fs ih =>
    rw [List.map_cons] at h
    have hholds : s.holds f = true := holds_iff.2 (h.subset List.mem_cons_self)
    have hrest : (fs.map Frame.fullHash).Subperm (s.remove f).fullHashes := by
      have herase := h.erase f.fullHash
      rwa [List.erase_cons_head, ← fullHashes_remove] at herase
    change (if s.holds f = true then f :: (removeEach fs (s.remove f)).1
      else (removeEach fs (s.remove f)).1) = f :: fs
    rw [if_pos hholds, ih hrest]

/-- Removing a part of a set leaves the full hashes of the rest. -/
theorem fullHashes_removeEach_perm {kept gone : List Frame} {s : TxSet}
    (h : (kept ++ gone).Perm s.transactions) :
    (removeEach gone s).2.fullHashes.Perm (kept.map Frame.fullHash) := by
  have hhashes : (s.fullHashes : Multiset Hash256) =
      (kept.map Frame.fullHash : Multiset Hash256) +
        (gone.map Frame.fullHash : Multiset Hash256) := by
    rw [Multiset.coe_add, ← List.map_append, fullHashes, Multiset.coe_eq_coe]
    exact (h.map _).symm
  rw [← Multiset.coe_eq_coe, fullHashes_removeEach, ← Multiset.coe_sub, hhashes,
    Multiset.add_sub_cancel_right]

end TxSet

/-! ### What full hashes tell -/

/-- What full hashes tell of transactions is the same, counted with multiplicity, of lists with the
same full hashes. -/
theorem map_perm_of_map_fullHash_perm {β : Type} {tell : Frame → β} {all xs ys : List Frame}
    (htell : ∀ f ∈ all, ∀ g ∈ all, f.fullHash = g.fullHash → tell f = tell g)
    (hxs : xs ⊆ all) (hys : ys ⊆ all)
    (h : (xs.map Frame.fullHash).Perm (ys.map Frame.fullHash)) :
    (xs.map tell).Perm (ys.map tell) := by
  induction xs generalizing ys with
  | nil =>
    obtain rfl : ys = [] := by simpa using h
    exact .refl _
  | cons x xs ih =>
    obtain ⟨hx, hxs⟩ := List.cons_subset.1 hxs
    -- Some transaction of the other list has the full hash of the head. It goes with the head.
    obtain ⟨y, hy, hyx⟩ := List.mem_map.1 (h.subset List.mem_cons_self)
    have hsplit : ys.Perm (y :: ys.erase y) := List.perm_cons_erase hy
    have hrest : (xs.map Frame.fullHash).Perm ((ys.erase y).map Frame.fullHash) := by
      have hcons := h.trans (hsplit.map Frame.fullHash)
      rw [List.map_cons, List.map_cons, hyx] at hcons
      exact hcons.cons_inv
    have htail := ih hxs (fun z hz => hys (List.mem_of_mem_erase hz)) hrest
    rw [List.map_cons, htell x hx y (hys hy) hyx.symm]
    exact (htail.cons _).trans (hsplit.map tell).symm

end NextLedger
