import Mathlib
import NextLedger.TxSet.Walk

/-!
# Orders

Hashes are linearly ordered. **Canonical order** ascends by full hash, and both tests for it, the
search for a descent and the Boolean one, decide just that. Sorting is **stable**: a relation that
holds along the elements given still holds between elements that compare as equal
(`pairwise_sortBy_of_ties`).
-/

namespace NextLedger

/-! ### Hashes -/

instance : Std.IsLinearOrder Hash256 :=
  Std.IsLinearOrder.of_le
    { antisymm := fun l r h h' =>
        Hash256.ext (Std.le_antisymm (show l.toBytes ≤ r.toBytes from h) h') }
    { trans := fun {l m r} (h : l.toBytes ≤ m.toBytes) (h' : m.toBytes ≤ r.toBytes) =>
        show l.toBytes ≤ r.toBytes from Std.le_trans h h' }
    { total := fun l r => show l.toBytes ≤ r.toBytes ∨ r.toBytes ≤ l.toBytes from Std.le_total }

instance : Std.LawfulOrderLT Hash256 where
  lt_iff l r := Std.LawfulOrderLT.lt_iff l.toBytes r.toBytes

/-- Two lists with the same members that ascend by a key are equal, if the key tells the members
apart. -/
theorem eq_of_perm_of_ascending {α : Type} {key : α → Hash256} {xs ys : List α}
    (hkey : ∀ x ∈ xs, ∀ y ∈ xs, key x = key y → x = y)
    (hx : xs.Pairwise fun x y => key x ≤ key y) (hy : ys.Pairwise fun x y => key x ≤ key y)
    (h : xs.Perm ys) : xs = ys := by
  refine List.Perm.eq_of_pairwise (fun x y hxs hys hxy hyx => ?_) hx hy h
  exact hkey x hxs y (h.mem_iff.2 hys) (Std.le_antisymm hxy hyx)

/-! ### Frames and their envelopes -/

/-- The full hash of a frame is that of the octets of its envelope. -/
theorem Frame.fullHash_eq_sha256 (f : Frame) : f.fullHash = sha256 f.envelope.toBytes := by
  rw [f.fullHash_eq, f.encoded_eq]

/-- Frames of one network are the frames of their envelopes. -/
theorem map_ofEnvelope_map_envelope {fs : List Frame} {network : Hash256}
    (h : ∀ f ∈ fs, f.network = network) :
    (fs.map Frame.envelope).map (Frame.ofEnvelope network) = fs := by
  rw [List.map_map]
  refine (List.map_congr_left fun f hf => ?_).trans (List.map_id _)
  rw [Function.comp, ← h f hf, Frame.ofEnvelope_envelope, id]

/-! ### Stable sorting -/

namespace Sorting

variable {α : Type} {le : α → α → Bool} {R : α → α → Prop}

/-- Inserting an element before later ones that it is related to keeps elements that compare as
equal related. -/
theorem pairwise_insertBy_of_ties (trans : ∀ a b c, le a b = true → le b c = true → le a c = true)
    (total : ∀ a b, le a b = true ∨ le b a = true) {x : α} {ys : List α}
    (hx : ∀ y ∈ ys, R x y)
    (h : ys.Pairwise fun a b => le a b = true ∧ (le b a = true → R a b)) :
    (insertBy le x ys).Pairwise fun a b => le a b = true ∧ (le b a = true → R a b) := by
  induction ys with
  | nil => simp [insertBy]
  | cons y ys ih =>
    obtain ⟨hhead, htail⟩ := List.pairwise_cons.1 h
    simp only [insertBy]
    split
    · -- `x` goes to the front, so it is related to all of `ys`, ties included.
      rename_i hle
      refine List.pairwise_cons.2 ⟨fun z hz => ⟨?_, fun _ => hx z hz⟩, h⟩
      rcases List.mem_cons.1 hz with rfl | hz
      · exact hle
      · exact trans _ _ _ hle (hhead z hz).1
    · -- `x` goes in after `y`, which is strictly less than it: there is no tie between the two.
      rename_i hnle
      refine List.pairwise_cons.2
        ⟨fun z hz => ?_, ih (fun z hz => hx z (List.mem_cons_of_mem _ hz)) htail⟩
      rcases List.mem_cons.1 ((insertBy_perm le x ys).mem_iff.1 hz) with rfl | hz
      · exact ⟨(total z y).resolve_left hnle, fun hle => absurd hle hnle⟩
      · exact hhead z hz

/-- **Stability.** What is related in the order given stays so among elements that compare as
equal. -/
theorem pairwise_sortBy_of_ties (trans : ∀ a b c, le a b = true → le b c = true → le a c = true)
    (total : ∀ a b, le a b = true ∨ le b a = true) {xs : List α} (h : xs.Pairwise R) :
    (sortBy le xs).Pairwise fun a b => le a b = true ∧ (le b a = true → R a b) := by
  induction xs with
  | nil => exact .nil
  | cons x xs ih =>
    obtain ⟨hhead, htail⟩ := List.pairwise_cons.1 h
    exact pairwise_insertBy_of_ties trans total (fun y hy => hhead y (mem_sortBy.1 hy)) (ih htail)

end Sorting

/-! ### Canonical order -/

/-- Whether no two different transactions among some have one full hash. -/
def NoCollision (fs : List Frame) : Prop :=
  ∀ f ∈ fs, ∀ g ∈ fs, f.fullHash = g.fullHash → f = g

theorem NoCollision.subset {fs gs : List Frame} (h : NoCollision gs) (hsub : fs ⊆ gs) :
    NoCollision fs :=
  fun f hf g hg => h f (hsub hf) g (hsub hg)

/-- The source is told by the envelope. -/
theorem Frame.source_eq_of_envelope_eq {f g : Frame} (h : f.envelope = g.envelope) :
    f.source = g.source :=
  congrArg (fun e : Envelope => e.transaction.source) h

/-- Without collisions of full hashes between different envelopes, frames of one network are told
apart by their full hashes. -/
theorem noCollision_of_network {fs : List Frame} {network : Hash256}
    (hnetwork : ∀ f ∈ fs, f.network = network)
    (hcoll : ∀ f ∈ fs, ∀ g ∈ fs, f.fullHash = g.fullHash → f.envelope = g.envelope) :
    NoCollision fs := fun f hf g hg hhash =>
  Frame.ext ((hnetwork f hf).trans (hnetwork g hg).symm) (hcoll f hf g hg hhash)

/-- Whether transactions ascend by full hash. -/
def Canonical (fs : List Frame) : Prop := fs.Pairwise fun f g => f.fullHash ≤ g.fullHash

theorem isCanonical_iff {fs : List Frame} : isCanonical fs = true ↔ Canonical fs := by
  induction fs with
  | nil => simp [isCanonical, Canonical]
  | cons f fs ih =>
    cases fs with
    | nil => simp [isCanonical, Canonical]
    | cons g fs =>
      simp only [isCanonical, Bool.and_eq_true, decide_eq_true_eq, ih, Canonical]
      constructor
      · rintro ⟨hfg, hpair⟩
        refine List.pairwise_cons.2 ⟨fun x hx => ?_, hpair⟩
        rcases List.mem_cons.1 hx with rfl | hx
        · exact hfg
        · exact Std.le_trans hfg (List.rel_of_pairwise_cons hpair hx)
      · intro hpair
        obtain ⟨hhead, htail⟩ := List.pairwise_cons.1 hpair
        exact ⟨hhead g List.mem_cons_self, htail⟩

theorem Hash256.zero_le (h : Hash256) : zero ≤ h := by
  have hall : ∀ bs : Bytes, List.replicate bs.length 0 ≤ bs := by
    intro bs
    induction bs with
    | nil => exact List.le_refl _
    | cons b bs ih =>
      rw [List.length_cons, List.replicate_succ, List.cons_le_cons_iff]
      rcases UInt8.lt_or_eq_of_le (UInt8.zero_le (a := b)) with hlt | heq
      · exact .inl hlt
      · exact .inr ⟨heq, ih⟩
  have hle := hall h.toBytes
  rwa [h.length_toBytes] at hle

/-- A search that goes on after some hash finds nothing exactly if that hash and all that follow
ascend. -/
theorem descentAfter?_eq_none_iff {last : Hash256} {position : Nat} {fs : List Frame} :
    descentAfter? last position fs = none ↔ (last :: fs.map Frame.fullHash).Pairwise (· ≤ ·) := by
  induction fs generalizing last position with
  | nil => simp [descentAfter?]
  | cons f fs ih =>
    rw [descentAfter?, List.map_cons, ← List.isChain_iff_pairwise, List.isChain_cons_cons,
      List.isChain_iff_pairwise]
    by_cases hlt : f.fullHash < last
    · simp [hlt, Std.not_le.2 hlt]
    · simp [hlt, ih, Std.not_lt.1 hlt]

/-- The search for a descent and the test of the order agree. -/
theorem firstDescent?_eq_none_iff {fs : List Frame} : firstDescent? fs = none ↔ Canonical fs := by
  rw [firstDescent?, descentAfter?_eq_none_iff, List.pairwise_cons, List.pairwise_map]
  exact and_iff_right fun h _ => h.zero_le

theorem exists_firstDescent?_iff {fs : List Frame} :
    (∃ i, firstDescent? fs = some i) ↔ isCanonical fs = false := by
  rw [← Option.isSome_iff_exists, ← Option.ne_none_iff_isSome, ne_eq, firstDescent?_eq_none_iff,
    ← isCanonical_iff, Bool.not_eq_true]

/-- Transactions are in canonical order, or there is a first place where they descend. -/
theorem canonical_or_exists_firstDescent? (fs : List Frame) :
    Canonical fs ∨ ∃ i, firstDescent? fs = some i := by
  cases hfs : isCanonical fs with
  | true => exact .inl (isCanonical_iff.1 hfs)
  | false => exact .inr (exists_firstDescent?_iff.2 hfs)

theorem not_canonical_of_firstDescent? {fs : List Frame} {i : ℕ}
    (h : firstDescent? fs = some i) : ¬ Canonical fs := fun hfs => by
  simp [firstDescent?_eq_none_iff.2 hfs] at h

theorem canonicalOrder_perm (fs : List Frame) : (canonicalOrder fs).Perm fs :=
  Sorting.sortBy_perm _ fs

theorem Frame.canonicalLe_trans (f g h : Frame) (hfg : f.canonicalLe g = true)
    (hgh : g.canonicalLe h = true) : f.canonicalLe h = true := by
  simp only [canonicalLe, decide_eq_true_eq] at *
  exact Std.le_trans hfg hgh

theorem Frame.canonicalLe_total (f g : Frame) :
    f.canonicalLe g = true ∨ g.canonicalLe f = true := by
  simp only [canonicalLe, decide_eq_true_eq]
  exact Std.le_total

theorem canonical_canonicalOrder (fs : List Frame) : Canonical (canonicalOrder fs) := by
  have h := Sorting.pairwise_sortBy Frame.canonicalLe_trans Frame.canonicalLe_total fs
  exact h.imp fun hle => by simpa [Frame.canonicalLe] using hle

theorem canonicalOrder_of_canonical {fs : List Frame} (h : Canonical fs) :
    canonicalOrder fs = fs :=
  Sorting.sortBy_of_pairwise (h.imp fun hle => by simpa [Frame.canonicalLe] using hle)

/-- The same transactions in different orders have one canonical order, unless full hashes
collide. -/
theorem canonicalOrder_eq_of_perm {fs gs : List Frame} (hcoll : NoCollision fs) (h : fs.Perm gs) :
    canonicalOrder fs = canonicalOrder gs := by
  have hfs := canonicalOrder_perm fs
  refine eq_of_perm_of_ascending (hcoll.subset hfs.subset) (canonical_canonicalOrder fs)
    (canonical_canonicalOrder gs) ?_
  exact hfs.trans (h.trans (canonicalOrder_perm gs).symm)

end NextLedger
