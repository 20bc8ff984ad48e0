import NextLedger.Proofs.Surge.Prefix

/-!
# The holder's places

Under a whitelist with a holder, the holder's transactions stand at the top of the ranking of
privileged transactions, in their turns (`sort_of_holder`). All places of privileged transactions
are therefore open to them, and what they lose beyond capacity is exactly what comes after as many
turns as there are such places (`filter_source_cut_of_holder`).

These are not all places that the ledger has. At least one is reserved as long as there is an
ordinary transaction, even where the holder could fill them all (`holder_yields_reserve`). What the
holder can count on is the capacity less what is reserved (`holder_keeps_unreserved_places`).
-/

namespace NextLedger

/-- A list in which all that `p` picks comes before all else is made of the one and the other. -/
theorem filter_append_filter_not_of_pairwise {α : Type} {p : α → Bool} {xs : List α}
    (h : xs.Pairwise fun x y => p y = true → p x = true) :
    xs.filter p ++ xs.filter (fun x => !p x) = xs := by
  induction xs with
  | nil => rfl
  | cons x xs ih =>
    obtain ⟨hhead, htail⟩ := List.pairwise_cons.1 h
    cases hx : p x with
    | true => simp [hx, ih htail]
    | false =>
      -- Nothing is picked after what is not.
      have hnone : ∀ y ∈ xs, p y = false := fun y hy => by
        cases hy' : p y with
        | false => rfl
        | true => exact absurd (hhead y hy hy') (by simp [hx])
      have hpicked : xs.filter p = [] := List.filter_eq_nil_iff.2 fun y hy => by simp [hnone y hy]
      have hrest : xs.filter (fun y => !p y) = xs :=
        List.filter_eq_self.2 fun y hy => by simp [hnone y hy]
      simp [hx, hpicked, hrest]

/-- **The holder comes first.** A ranking begins with the holder's turns. -/
theorem Priority.sort_of_holder {p : Priority} {a : AccountId} (h : p.holder = some a)
    (fs : List Frame) :
    p.sort fs = turnsOf fs a ++ (p.sort fs).filter fun f => !(f.source == a) := by
  have hfirst : (p.sort fs).Pairwise fun f g =>
      (g.source == a) = true → (f.source == a) = true := by
    refine (p.ranked_sort fs).imp fun {f g} hle hg => ?_
    have hga : g.source = a := by simpa using hg
    by_contra hf
    have hfa : f.source ≠ a := by simpa using hf
    have hne : f.source ≠ g.source := fun heq => hfa (heq.trans hga)
    have hgt : p.compare f g = .gt := by
      rw [compare, if_neg hne, if_neg, if_pos (h.trans (congrArg some hga.symm))]
      rw [h, Option.some.injEq]
      exact hfa.symm
    simp [hgt] at hle
  rw [← filter_source_sort p fs a, filter_append_filter_not_of_pairwise hfirst]

theorem Whitelist.isPrivileged_of_holder {w : Whitelist} {a : AccountId} (h : w.holder = some a) :
    w.toPolicy.isPrivileged a = true := by
  simp [toPolicy, isPrivileged, h]

namespace TxSet

variable {σ : Type} {s : TxSet} {view : LedgerView σ} {w : Whitelist} {a : AccountId}

/-- Beyond capacity the holder loses the turns for which there are no privileged places. -/
theorem filter_source_cut_of_holder (s : TxSet) (view : LedgerView σ) (h : w.holder = some a) :
    (s.cut view w.toPolicy).filter (fun f => f.source == a) =
      (turnsOf s.transactions a).drop (s.places w.toPolicy view.maxSetSize true) := by
  have hclass : ∀ fs : List Frame,
      (fs.filter fun f => w.toPolicy.isPrivileged f.source == true).filter
        (fun f => f.source == a) = fs.filter fun f => f.source == a := fun fs => by
    rw [← Whitelist.isPrivileged_of_holder h, filter_source_filter_class]
  have hturns : turnsOf (s.part w.toPolicy true) a = turnsOf s.transactions a := by
    rw [turnsOf, turnsOf, part, hclass]
  rw [← hclass, filter_cut, cutOf, ranking, Priority.sort_of_holder h, hturns, List.drop_append,
    List.filter_append]
  have hown : ∀ n, ((turnsOf s.transactions a).drop n).filter (fun f => f.source == a) =
      (turnsOf s.transactions a).drop n := fun n =>
    List.filter_eq_self.2 fun f hf => by
      simpa using (mem_turnsOf.1 (List.mem_of_mem_drop hf)).2
  have hothers : ∀ (fs : List Frame) (n : Nat),
      ((fs.filter fun f => !(f.source == a)).drop n).filter (fun f => f.source == a) = [] :=
    fun fs n => List.filter_eq_nil_iff.2 fun f hf => by
      simpa using (List.mem_filter.1 (List.mem_of_mem_drop hf)).2
  rw [hown, hothers, List.append_nil]

/-- An account of which nothing goes is left with what it had, as long as full hashes tell accounts
apart. -/
theorem filter_source_surge {policy : Policy} {a : AccountId}
    (hsource : ∀ f ∈ s.transactions, ∀ g ∈ s.transactions,
      f.fullHash = g.fullHash → f.source = g.source)
    (hnone : ∀ f ∈ (s.surge view policy).1, f.source ≠ a) :
    (s.surge view policy).2.transactions.filter (fun f => f.source == a) =
      s.transactions.filter fun f => f.source == a := by
  rcases Nat.lt_or_ge view.maxSetSize s.size with h | h
  · have hcut : (s.cut view policy).filter (fun f => f.source == a) = [] :=
      List.filter_eq_nil_iff.2 fun f hf => by simpa using hnone f (fst_surge_of_lt h ▸ hf)
    have hcount : ∀ fs : List Frame, (fs.filter fun f => f.source == a).length =
        (fs.map Frame.source).count a := fun fs => by
      rw [List.count, List.countP_map, List.countP_eq_length_filter]
      rfl
    have hall := ((kept_append_cut_perm s view policy).filter fun f => f.source == a).length_eq
    rw [List.filter_append, hcut, List.append_nil] at hall
    -- As many are left as are kept, which are all; and removal keeps the order.
    refine ((surge_sublist s view policy).filter _).eq_of_length ?_
    rw [← hall, hcount, hcount]
    exact (map_surge_perm h hsource).count_eq a
  · rw [surge_of_le h]

/-- The privileged places under a whitelist: those that are not reserved for the ordinary
transactions that there are. -/
theorem places_true_of_whitelist (s : TxSet) (w : Whitelist) (capacity : Nat) :
    s.places w.toPolicy capacity true =
      capacity - min (w.reserve capacity)
        (s.transactions.filter fun f => !w.isPrivileged f.source).length := by
  simp [places, reserved, part, Whitelist.toPolicy]

/-- What goes of the holder's transactions beyond capacity. -/
theorem filter_source_fst_surge_of_holder (hholder : w.holder = some a)
    (h : view.maxSetSize < s.size) :
    (s.surge view w.toPolicy).1.filter (fun f => f.source == a) =
      (turnsOf s.transactions a).drop (s.places w.toPolicy view.maxSetSize true) := by
  rw [fst_surge_of_lt h, filter_source_cut_of_holder s view hholder]

/-- The holder loses nothing as long as there are privileged places for all it has, or the set is
within capacity. -/
theorem source_ne_of_mem_fst_surge (hholder : w.holder = some a)
    (hroom : (s.transactions.filter fun f => f.source == a).length ≤
      s.places w.toPolicy view.maxSetSize true ∨ s.size ≤ view.maxSetSize) :
    ∀ f ∈ (s.surge view w.toPolicy).1, f.source ≠ a := by
  rcases Nat.lt_or_ge view.maxSetSize s.size with h | h
  · have hfits : (turnsOf s.transactions a).length ≤ s.places w.toPolicy view.maxSetSize true := by
      rw [(turnsOf_perm _ a).length_eq]
      exact hroom.resolve_right (Nat.not_le.2 h)
    have hnil := filter_source_fst_surge_of_holder hholder h
    rw [List.drop_eq_nil_of_le hfits, List.filter_eq_nil_iff] at hnil
    exact fun f hf => by simpa using hnil f hf
  · rw [surge_of_le h]
    simp

/-- **The holder keeps all places that are not reserved.** Under a whitelist with a holder, a set
loses no transaction of the holder as long as there are no more of them than the capacity less what
is reserved for the ordinary transactions that there are, or the set is within capacity, whatever
the others offer and however many they are. Of a set beyond capacity the holder loses exactly what
comes after as many turns as there are such places. Unless two different envelopes of the set share
a full hash, what is not returned is left in the set, in its order. -/
theorem holder_keeps_unreserved_places (s : TxSet) (view : LedgerView σ) (w : Whitelist)
    (a : AccountId) (hholder : w.holder = some a) :
    let capacity := view.maxSetSize
    let ordinary := s.transactions.filter fun f => !w.isPrivileged f.source
    let own := s.transactions.filter fun f => f.source == a
    let room := capacity - min (w.reserve capacity) ordinary.length
    let run := s.surge view w.toPolicy
    (own.length ≤ room ∨ s.size ≤ capacity →
      (∀ f ∈ run.1, f.source ≠ a) ∧
      (run.2.transactions.filter (fun f => f.source == a) = own ∨
        ∃ f ∈ s.transactions, ∃ g ∈ s.transactions,
          f.fullHash = g.fullHash ∧ f.envelope ≠ g.envelope)) ∧
    (capacity < s.size →
      run.1.filter (fun f => f.source == a) = (turnsOf s.transactions a).drop room) := by
  intro capacity ordinary own room run
  have hplaces : s.places w.toPolicy capacity true = room := places_true_of_whitelist s w capacity
  refine ⟨fun hroom => ?_, fun h => hplaces ▸ filter_source_fst_surge_of_holder hholder h⟩
  have hnone : ∀ f ∈ run.1, f.source ≠ a :=
    source_ne_of_mem_fst_surge hholder (hplaces.symm ▸ hroom)
  refine ⟨hnone, ?_⟩
  by_cases hcoll : ∃ f ∈ s.transactions, ∃ g ∈ s.transactions,
      f.fullHash = g.fullHash ∧ f.envelope ≠ g.envelope
  · exact .inr hcoll
  · refine .inl (filter_source_surge (fun f hf g hg hhash => ?_) hnone)
    refine Frame.source_eq_of_envelope_eq ?_
    by_contra hne
    exact hcoll ⟨f, hf, g, hg, hhash, hne⟩

end TxSet

namespace Sample

/-- The first account is the holder, and nothing but the least is reserved for the others. -/
def firstHolds : Whitelist := .ofList (some (account 1)) [] 0

/-- A transaction of the first account that offers the least, and a better one of another. -/
def rivalled : TxSet := .ofFrames .zero [offer 1 100 1, offer 2 300 1]

end Sample

namespace TxSet

set_option maxRecDepth 100000 in
/-- The case of three transactions of the holder and two others, with one place reserved: of four
places the holder's take three, and of three places two, so that the last turn goes. -/
theorem holder_in_crowded :
    let run := fun capacity => Sample.crowded.surge
      (.fixed (Sample.closed capacity) Sample.ledger.load) Sample.firstHolds.toPolicy
    Sample.firstHolds.holder = some (Sample.account 1) ∧
    (∀ f ∈ (run 4).1, f.source ≠ Sample.account 1) ∧
    (run 3).1.filter (fun f => f.source == Sample.account 1) = [Sample.offer 1 100 2] := by
  intro run
  have hfour := holder_keeps_unreserved_places Sample.crowded
    (.fixed (Sample.closed 4) Sample.ledger.load) Sample.firstHolds (Sample.account 1) rfl
  have hthree := holder_keeps_unreserved_places Sample.crowded
    (.fixed (Sample.closed 3) Sample.ledger.load) Sample.firstHolds (Sample.account 1) rfl
  refine ⟨rfl, (hfour.1 (.inl (by decide))).1, ?_⟩
  exact (hthree.2 (by decide)).trans (by decide +kernel)

set_option maxRecDepth 100000 in
/-- **The holder does not keep all places of the ledger.** With one place for one transaction of the
holder and one of another account, the place is reserved and the holder's transaction goes. -/
theorem holder_yields_reserve :
    ¬ ∀ (closed : ClosedLedger) (load : AccountId → Except StoreFault AccountEntry)
        (w : Whitelist) (a : AccountId) (s : TxSet), w.holder = some a →
      (s.transactions.filter fun f => f.source == a).length ≤
        (LedgerView.fixed closed load).maxSetSize →
      ∀ f ∈ (s.surge (.fixed closed load) w.toPolicy).1, f.source ≠ a := by
  intro h
  have hgone : Sample.offer 1 100 1 ∈ (Sample.rivalled.surge
      (.fixed (Sample.closed 1) Sample.ledger.load) Sample.firstHolds.toPolicy).1 := by
    decide +kernel
  exact h (Sample.closed 1) Sample.ledger.load Sample.firstHolds (Sample.account 1)
    Sample.rivalled rfl (by decide) _ hgone rfl

end TxSet

end NextLedger
