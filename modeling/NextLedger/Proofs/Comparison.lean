import NextLedger.Proofs.Groups

/-!
# Comparisons

Transactions are put in order by **comparisons**, which tell of two elements which comes first. All
of them go by keys in linear orders: by one key (`compareBy`), or by several keys in turn, the next
where the last one leaves a tie. Comparisons of this kind are consistent (`Std.TransCmp`): the
answer turns round when what is compared changes places, and not coming after is transitive.

Sorting by such a comparison ascends under it. It may change places with picking out some of the
elements (`filter_sortBy`), so that what is true of the sorted whole can be seen on sorted parts.
-/

namespace NextLedger

/-- What stands in one way to a second, which stands in the same way to a third, stands in this way
to the third. -/
theorem trans_of_same {α : Type} {cmp : α → α → Ordering} [Std.TransCmp cmp] {o : Ordering}
    {x y z : α} (hxy : cmp x y = o) (hyz : cmp y z = o) : cmp x z = o := by
  cases o with
  | lt => exact Std.TransCmp.lt_trans hxy hyz
  | eq => exact Std.TransCmp.eq_trans hxy hyz
  | gt => exact Std.TransCmp.gt_trans hxy hyz

/-! ### Comparing by a key -/

section CompareBy

variable {α κ : Type} [LT κ] [DecidableLT κ] {key : α → κ} {x y : α}

/-- Which of two elements has the lower key. -/
def compareBy (key : α → κ) (x y : α) : Ordering :=
  if key x < key y then .lt else if key y < key x then .gt else .eq

variable [LE κ] [Std.IsLinearOrder κ] [Std.LawfulOrderLT κ]

theorem isLE_compareBy_iff : (compareBy key x y).isLE = true ↔ key x ≤ key y := by
  rw [compareBy]
  rcases Std.lt_trichotomy (key x) (key y) with hlt | heq | hgt
  · simp [hlt, Std.le_of_lt hlt]
  · simp [heq, Std.lt_irrefl]
  · simp [hgt, Std.not_lt.2 (Std.le_of_lt hgt), Std.not_le.2 hgt]

theorem compareBy_eq_eq_iff : compareBy key x y = .eq ↔ key x = key y := by
  rw [compareBy]
  rcases Std.lt_trichotomy (key x) (key y) with hlt | heq | hgt
  · simp [hlt, Std.ne_of_lt hlt]
  · simp [heq, Std.lt_irrefl]
  · simp [hgt, Std.not_lt.2 (Std.le_of_lt hgt), (Std.ne_of_lt hgt).symm]

theorem compareBy_eq_lt_iff : compareBy key x y = .lt ↔ key x < key y := by
  rw [compareBy]
  rcases Std.lt_trichotomy (key x) (key y) with hlt | heq | hgt
  · simp [hlt]
  · simp [heq, Std.lt_irrefl]
  · simp [hgt, Std.not_lt.2 (Std.le_of_lt hgt)]

instance (key : α → κ) : Std.TransCmp (compareBy key) where
  eq_swap {x y} := by
    simp only [compareBy]
    rcases Std.lt_trichotomy (key x) (key y) with hlt | heq | hgt
    · simp [hlt, Std.not_lt.2 (Std.le_of_lt hlt)]
    · simp [heq, Std.lt_irrefl]
    · simp [hgt, Std.not_lt.2 (Std.le_of_lt hgt)]
  isLE_trans hxy hyz := by
    rw [isLE_compareBy_iff] at *
    exact Std.le_trans hxy hyz

end CompareBy

/-! ### The comparisons of the library -/

instance : Std.IsLinearOrder AccountId :=
  Std.IsLinearOrder.of_le
    { antisymm := fun a b h h' =>
        AccountId.ext (Std.le_antisymm (show a.toBytes ≤ b.toBytes from h) h') }
    { trans := fun {a b c} (h : a.toBytes ≤ b.toBytes) (h' : b.toBytes ≤ c.toBytes) =>
        show a.toBytes ≤ c.toBytes from Std.le_trans h h' }
    { total := fun a b => show a.toBytes ≤ b.toBytes ∨ b.toBytes ≤ a.toBytes from Std.le_total }

instance : Std.LawfulOrderLT AccountId where
  lt_iff a b := Std.LawfulOrderLT.lt_iff a.toBytes b.toBytes

/-- The masked order compares hashes after the exclusive or with the mask. -/
theorem Hash256.orderMasked_eq_compareBy (mask : Hash256) :
    orderMasked mask = compareBy fun h => h.xor mask := by
  funext l r
  simp only [orderMasked, lessMasked, decide_eq_true_eq, compareBy]

namespace Frame

theorem sequenceOrder_eq_compareLex :
    sequenceOrder = compareLex (compareBy sequence) (compareBy fullHash) := by
  funext f g
  simp only [sequenceOrder, compareLex, compareBy]
  split
  · rfl
  · split
    · rfl
    · rfl

instance : Std.TransCmp sequenceOrder := sequenceOrder_eq_compareLex ▸ inferInstance

/-- Not coming after by sequence number and full hash is being walked before. -/
theorem isLE_sequenceOrder_iff {f g : Frame} :
    (f.sequenceOrder g).isLE = true ↔ f.WalksBefore g := by
  rw [sequenceOrder_eq_compareLex, compareLex, Ordering.isLE_then_iff_and, isLE_compareBy_iff,
    isLE_compareBy_iff, compareBy_eq_lt_iff, WalksBefore, ← Std.not_le, imp_iff_not_or]

end Frame

/-! ### Sorting by a comparison -/

namespace Sorting

variable {α : Type} {le : α → α → Bool}

theorem insertBy_of_forall {x : α} {ys : List α} (h : ∀ y ∈ ys, le x y = true) :
    insertBy le x ys = x :: ys := by
  cases ys with
  | nil => rfl
  | cons y ys => rw [insertBy, if_pos (h y List.mem_cons_self)]

theorem insertBy_congr {le' : α → α → Bool} {x : α} {ys : List α}
    (h : ∀ y ∈ ys, le x y = le' x y) : insertBy le x ys = insertBy le' x ys := by
  induction ys with
  | nil => rfl
  | cons y ys ih =>
    obtain ⟨hy, hys⟩ := List.forall_mem_cons.1 h
    rw [insertBy, insertBy, hy, ih hys]

/-- Sorting depends on how the elements themselves are compared, and on nothing else. -/
theorem sortBy_congr {le' : α → α → Bool} {xs : List α}
    (h : ∀ x ∈ xs, ∀ y ∈ xs, le x y = le' x y) : sortBy le xs = sortBy le' xs := by
  induction xs with
  | nil => rfl
  | cons x xs ih =>
    obtain ⟨hx, hxs⟩ := List.forall_mem_cons.1 h
    have htail : sortBy le xs = sortBy le' xs :=
      ih fun y hy z hz => hxs y hy z (List.mem_cons_of_mem x hz)
    rw [sortBy, sortBy, htail]
    exact insertBy_congr fun y hy => hx y (List.mem_cons_of_mem x (mem_sortBy.1 hy))

theorem filter_insertBy (trans : ∀ a b c, le a b = true → le b c = true → le a c = true)
    (p : α → Bool) {x : α} {ys : List α} (h : ys.Pairwise fun a b => le a b = true) :
    (insertBy le x ys).filter p = if p x then insertBy le x (ys.filter p) else ys.filter p := by
  induction ys with
  | nil => by_cases hx : p x <;> simp [insertBy, hx]
  | cons y ys ih =>
    obtain ⟨hhead, htail⟩ := List.pairwise_cons.1 h
    by_cases hle : le x y = true
    · -- `x` precedes all of the list, and so all that is picked out of it.
      have hall : ∀ z ∈ (y :: ys).filter p, le x z = true := fun z hz => by
        rcases List.mem_cons.1 (List.mem_filter.1 hz).1 with rfl | hz
        · exact hle
        · exact trans _ _ _ hle (hhead z hz)
      rw [insertBy, if_pos hle, insertBy_of_forall hall, List.filter_cons]
    · rw [insertBy, if_neg hle, List.filter_cons, ih htail, List.filter_cons]
      by_cases hx : p x <;> by_cases hy : p y <;> simp [hx, hy, insertBy, hle]

/-- Picking out some of the elements and sorting them is picking them out of all, sorted. -/
theorem filter_sortBy (trans : ∀ a b c, le a b = true → le b c = true → le a c = true)
    (total : ∀ a b, le a b = true ∨ le b a = true) (p : α → Bool) (xs : List α) :
    (sortBy le xs).filter p = sortBy le (xs.filter p) := by
  induction xs with
  | nil => rfl
  | cons x xs ih =>
    rw [sortBy, filter_insertBy trans p (pairwise_sortBy trans total xs), ih, List.filter_cons]
    split <;> rfl

section Comparison

variable (cmp : α → α → Ordering) [Std.TransCmp cmp]

omit [Std.TransCmp cmp] in
theorem ne_gt_eq_isLE (x y : α) : (cmp x y != .gt) = (cmp x y).isLE := by
  cases cmp x y <;> rfl

theorem ne_gt_trans (x y z : α) (hxy : (cmp x y != .gt) = true) (hyz : (cmp y z != .gt) = true) :
    (cmp x z != .gt) = true := by
  rw [ne_gt_eq_isLE] at *
  exact Std.TransCmp.isLE_trans hxy hyz

theorem ne_gt_total (x y : α) : (cmp x y != .gt) = true ∨ (cmp y x != .gt) = true := by
  have hswap : cmp y x = (cmp x y).swap := Std.OrientedCmp.eq_swap
  rw [hswap]
  cases cmp x y <;> simp

/-- What has been sorted by a comparison ascends under it. -/
theorem pairwise_isLE_sortBy (xs : List α) :
    (sortBy (fun x y => cmp x y != .gt) xs).Pairwise fun x y => (cmp x y).isLE = true := by
  have h := pairwise_sortBy (ne_gt_trans cmp) (ne_gt_total cmp) xs
  exact h.imp fun hle => by rwa [ne_gt_eq_isLE] at hle

theorem filter_sortBy_cmp (p : α → Bool) (xs : List α) :
    (sortBy (fun x y => cmp x y != .gt) xs).filter p =
      sortBy (fun x y => cmp x y != .gt) (xs.filter p) :=
  filter_sortBy (ne_gt_trans cmp) (ne_gt_total cmp) p xs

end Comparison

end Sorting

end NextLedger
