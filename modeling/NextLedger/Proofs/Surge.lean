import NextLedger.Proofs.Priority
import NextLedger.Proofs.Removal
import NextLedger.TxSet.Surge

/-!
# What surge pricing leaves

Surge pricing cuts each class of a set, the privileged and the ordinary transactions, to a number of
**places**. It ranks the class and keeps as many as there are places for, from the top of the
**ranking**. A set beyond capacity is therefore made of what is **kept** and what is **cut**
(`kept_append_cut_perm`), and the latter is taken out of it, one by one and by full hash. The full
hashes that stay are those of what is kept, whatever collides (`fullHashes_surge_perm`), and so is
everything that full hashes tell (`map_surge_perm`).

Nothing else about a set changes. As long as no more than the capacity is reserved, which holds for
every whitelist, what is left is within capacity (`size_surge_le`).
-/

namespace NextLedger

/-- A whitelist reserves at most the whole capacity. -/
theorem Whitelist.reserve_le (w : Whitelist) (max : Nat) : w.reserve max ≤ max := by
  rw [reserve]
  split
  · exact Nat.min_le_right _ _
  · exact le_rfl

namespace TxSet

variable {σ : Type}

/-! ### Classes, rankings and places -/

/-- The transactions of one class of a set, in their current order. -/
def part (s : TxSet) (policy : Policy) (privileged : Bool) : List Frame :=
  s.transactions.filter fun f => policy.isPrivileged f.source == privileged

/-- How the transactions of one class of a set are ranked. -/
def priority (s : TxSet) (view : LedgerView σ) (policy : Policy) (privileged : Bool) : Priority :=
  ⟨accountFeeRatios view.header s.transactions, privileged, policy.holder⟩

/-- The transactions of one class of a set by descending priority. -/
def ranking (s : TxSet) (view : LedgerView σ) (policy : Policy) (privileged : Bool) : List Frame :=
  (s.priority view policy privileged).sort (s.part policy privileged)

/-- How much of a capacity is reserved for the ordinary transactions that there are. -/
def reserved (s : TxSet) (policy : Policy) (capacity : Nat) : Nat :=
  min (policy.reserve capacity) (s.part policy false).length

/-- The number of places for one class: privileged transactions have what is not reserved, ordinary
ones what is reserved and what the former leave. -/
def places (s : TxSet) (policy : Policy) (capacity : Nat) : Bool → Nat
  | true => capacity - s.reserved policy capacity
  | false => s.reserved policy capacity +
      (capacity - s.reserved policy capacity - (s.part policy true).length)

/-- The transactions of one class for which there are places. -/
def keptOf (s : TxSet) (view : LedgerView σ) (policy : Policy) (privileged : Bool) : List Frame :=
  (s.ranking view policy privileged).take (s.places policy view.maxSetSize privileged)

/-- The transactions of one class for which there are no places. -/
def cutOf (s : TxSet) (view : LedgerView σ) (policy : Policy) (privileged : Bool) : List Frame :=
  (s.ranking view policy privileged).drop (s.places policy view.maxSetSize privileged)

/-- What surge pricing keeps of a set beyond capacity. -/
def kept (s : TxSet) (view : LedgerView σ) (policy : Policy) : List Frame :=
  s.keptOf view policy true ++ s.keptOf view policy false

/-- What surge pricing removes from a set beyond capacity. -/
def cut (s : TxSet) (view : LedgerView σ) (policy : Policy) : List Frame :=
  s.cutOf view policy true ++ s.cutOf view policy false

variable {s : TxSet} {view : LedgerView σ} {policy : Policy}

@[simp] theorem mem_part {privileged : Bool} {f : Frame} :
    f ∈ s.part policy privileged ↔
      f ∈ s.transactions ∧ policy.isPrivileged f.source = privileged := by
  simp [part]

theorem surge_of_le (h : s.size ≤ view.maxSetSize) (policy : Policy) :
    s.surge view policy = ([], s) := if_pos h

/-- From a set beyond capacity what is cut is removed. -/
theorem surge_of_lt (h : view.maxSetSize < s.size) :
    s.surge view policy = s.removeEach (s.cut view policy) := by
  rw [surge, if_neg (Nat.not_le.2 h)]
  simp [cut, cutOf, ranking, priority, part, places, reserved]

theorem ranking_perm (privileged : Bool) :
    (s.ranking view policy privileged).Perm (s.part policy privileged) :=
  Priority.sort_perm _ _

theorem part_append_perm (s : TxSet) (policy : Policy) :
    (s.part policy true ++ s.part policy false).Perm s.transactions := by
  simpa [part] using List.filter_append_perm (fun f : Frame => policy.isPrivileged f.source)
    s.transactions

theorem length_part_add (s : TxSet) (policy : Policy) :
    (s.part policy true).length + (s.part policy false).length = s.size := by
  rw [← List.length_append]
  exact (part_append_perm s policy).length_eq

theorem kept_append_cut_perm (s : TxSet) (view : LedgerView σ) (policy : Policy) :
    (s.kept view policy ++ s.cut view policy).Perm s.transactions := by
  have hclass : ∀ privileged, (s.keptOf view policy privileged ++
      s.cutOf view policy privileged).Perm (s.part policy privileged) := fun privileged => by
    rw [keptOf, cutOf, List.take_append_drop]
    exact ranking_perm privileged
  refine List.Perm.trans ?_
    (((hclass true).append (hclass false)).trans (part_append_perm s policy))
  rw [kept, cut, List.append_assoc, List.append_assoc]
  refine List.Perm.append_left _ ?_
  rw [← List.append_assoc, ← List.append_assoc]
  exact List.perm_append_comm.append_right _

/-! ### What is left and what is removed -/

/-- Surge pricing changes a set by removals alone. -/
theorem KeptByRemoval.surge {P : TxSet → Prop} (hP : KeptByRemoval P) {s : TxSet} (hs : P s)
    (view : LedgerView σ) (policy : Policy) : P (s.surge view policy).2 := by
  rcases Nat.lt_or_ge view.maxSetSize s.size with h | h
  · rw [surge_of_lt h]
    exact hP.removeEach _ hs
  · rwa [surge_of_le h]

@[simp] theorem previous_surge (s : TxSet) (view : LedgerView σ) (policy : Policy) :
    (s.surge view policy).2.previous = s.previous :=
  (keptByRemoval_previous s.previous).surge rfl view policy

theorem surge_sublist (s : TxSet) (view : LedgerView σ) (policy : Policy) :
    (s.surge view policy).2.transactions.Sublist s.transactions :=
  (keptByRemoval_sublist s.transactions).surge (.refl _) view policy

/-- Whatever is cut is found in the set, and returned. -/
theorem fst_surge_of_lt (h : view.maxSetSize < s.size) :
    (s.surge view policy).1 = s.cut view policy := by
  rw [surge_of_lt h]
  refine fst_removeEach (List.Subperm.trans ?_ ((kept_append_cut_perm s view policy).map _).subperm)
  rw [List.map_append]
  exact (List.sublist_append_right _ _).subperm

theorem fst_surge_subset (s : TxSet) (view : LedgerView σ) (policy : Policy) :
    (s.surge view policy).1 ⊆ s.transactions := by
  rcases Nat.lt_or_ge view.maxSetSize s.size with h | h
  · rw [fst_surge_of_lt h]
    exact fun f hf => (kept_append_cut_perm s view policy).subset (List.mem_append_right _ hf)
  · rw [surge_of_le h]
    exact List.nil_subset _

/-- What is left has the full hashes of what is kept. -/
theorem fullHashes_surge_perm (h : view.maxSetSize < s.size) :
    (s.surge view policy).2.fullHashes.Perm ((s.kept view policy).map Frame.fullHash) := by
  rw [surge_of_lt h]
  exact fullHashes_removeEach_perm (kept_append_cut_perm s view policy)

/-- What full hashes tell is the same of what is left and of what is kept. -/
theorem map_surge_perm {β : Type} {tell : Frame → β} (h : view.maxSetSize < s.size)
    (htell : ∀ f ∈ s.transactions, ∀ g ∈ s.transactions,
      f.fullHash = g.fullHash → tell f = tell g) :
    ((s.surge view policy).2.transactions.map tell).Perm ((s.kept view policy).map tell) := by
  refine map_perm_of_map_fullHash_perm htell (surge_sublist s view policy).subset ?_
    (fullHashes_surge_perm h)
  exact fun f hf => (kept_append_cut_perm s view policy).subset (List.mem_append_left _ hf)

/-! ### How much is left -/

theorem length_keptOf (privileged : Bool) :
    (s.keptOf view policy privileged).length =
      min (s.places policy view.maxSetSize privileged) (s.part policy privileged).length := by
  rw [keptOf, List.length_take, (ranking_perm privileged).length_eq]

/-- A set beyond capacity is cut to it, or to what is reserved if that is more. -/
theorem size_surge_of_lt (h : view.maxSetSize < s.size) :
    (s.surge view policy).2.size = max view.maxSetSize (s.reserved policy view.maxSetSize) := by
  have hperm : (s.surge view policy).2.fullHashes.Perm ((s.kept view policy).map Frame.fullHash) :=
    fullHashes_surge_perm h
  have hlength := hperm.length_eq
  have hparts := length_part_add s policy
  have hreserved : s.reserved policy view.maxSetSize ≤ (s.part policy false).length :=
    min_le_right _ _
  rw [fullHashes, List.length_map, List.length_map, kept, List.length_append, length_keptOf,
    length_keptOf, places, places] at hlength
  rw [size] at hparts h ⊢
  omega

/-- What is removed and what is left are as many as there were. -/
theorem length_surge_add (s : TxSet) (view : LedgerView σ) (policy : Policy) :
    (s.surge view policy).1.length + (s.surge view policy).2.size = s.size := by
  rcases Nat.lt_or_ge view.maxSetSize s.size with h | h
  · have hperm : (s.surge view policy).2.fullHashes.Perm
        ((s.kept view policy).map Frame.fullHash) := fullHashes_surge_perm h
    have hleft := hperm.length_eq
    have hall := (kept_append_cut_perm s view policy).length_eq
    rw [fullHashes, List.length_map, List.length_map] at hleft
    rw [List.length_append] at hall
    rw [fst_surge_of_lt h, size, size]
    omega
  · rw [surge_of_le h, List.length_nil, Nat.zero_add]

/-- **Surge pricing cuts a set down to capacity**, as long as no more than that is reserved. -/
theorem size_surge_le (s : TxSet) (view : LedgerView σ) (policy : Policy)
    (hreserve : policy.reserve view.maxSetSize ≤ view.maxSetSize) :
    (s.surge view policy).2.size ≤ view.maxSetSize := by
  rcases Nat.lt_or_ge view.maxSetSize s.size with h | h
  · rw [size_surge_of_lt h]
    exact max_le le_rfl ((min_le_left _ _).trans hreserve)
  · rw [surge_of_le h]
    exact h

end TxSet

end NextLedger
