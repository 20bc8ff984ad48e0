import NextLedger.Proofs.Affordability
import NextLedger.Proofs.Surge

/-!
# How surge pricing shares capacity

Beyond capacity, a set is left with as many transactions as the ledger takes, or with as many as are
reserved if that is more; this is a matter of counting, whatever collides. Which class the
transactions left belong to is told by their full hashes, as long as no two different envelopes
share one. Privileged transactions then fill what is not reserved, ordinary ones all the rest
(`length_part_surge`): the reserve is honoured, and neither class leaves a place free that the other
has a transaction for (`surge_shares_capacity`).
-/

namespace NextLedger

namespace TxSet

variable {σ : Type} {s : TxSet} {view : LedgerView σ} {policy : Policy}

theorem length_part (s : TxSet) (policy : Policy) (privileged : Bool) :
    (s.part policy privileged).length =
      (s.transactions.map fun f => policy.isPrivileged f.source).count privileged := by
  rw [part, List.count, List.countP_map, List.countP_eq_length_filter]
  rfl

/-- Of two lists, one of either class, each is what is picked out of both by its class. -/
theorem filter_class_append {classes : Bool → List Frame}
    (h : ∀ class', ∀ f ∈ classes class', policy.isPrivileged f.source = class')
    (privileged : Bool) :
    (classes true ++ classes false).filter (fun f => policy.isPrivileged f.source == privileged) =
      classes privileged := by
  have hself : ∀ class', (classes class').filter
      (fun f => policy.isPrivileged f.source == privileged) =
        if class' = privileged then classes class' else [] := fun class' => by
    split
    · exact List.filter_eq_self.2 fun f hf => by simpa [h class' f hf]
    · exact List.filter_eq_nil_iff.2 fun f hf => by simpa [h class' f hf]
  rw [List.filter_append, hself, hself]
  cases privileged <;> simp

theorem isPrivileged_of_mem_ranking {privileged : Bool} {f : Frame}
    (hf : f ∈ s.ranking view policy privileged) : policy.isPrivileged f.source = privileged :=
  (mem_part.1 ((ranking_perm privileged).subset hf)).2

/-- What is kept of one class is what there are places for in the class. -/
theorem filter_kept (s : TxSet) (view : LedgerView σ) (policy : Policy) (privileged : Bool) :
    (s.kept view policy).filter (fun f => policy.isPrivileged f.source == privileged) =
      s.keptOf view policy privileged :=
  filter_class_append (fun _ _ hf => isPrivileged_of_mem_ranking (List.mem_of_mem_take hf)) _

/-- What is cut of one class is what there are no places for in the class. -/
theorem filter_cut (s : TxSet) (view : LedgerView σ) (policy : Policy) (privileged : Bool) :
    (s.cut view policy).filter (fun f => policy.isPrivileged f.source == privileged) =
      s.cutOf view policy privileged :=
  filter_class_append (fun _ _ hf => isPrivileged_of_mem_ranking (List.mem_of_mem_drop hf)) _

/-- As long as no two different envelopes share a full hash, a class is left with as many
transactions as it has places, or with all it has. -/
theorem length_part_surge (h : view.maxSetSize < s.size)
    (hcoll : ∀ f ∈ s.transactions, ∀ g ∈ s.transactions,
      f.fullHash = g.fullHash → f.envelope = g.envelope) (privileged : Bool) :
    ((s.surge view policy).2.part policy privileged).length =
      min (s.places policy view.maxSetSize privileged) (s.part policy privileged).length := by
  have hsource : ∀ f ∈ s.transactions, ∀ g ∈ s.transactions, f.fullHash = g.fullHash →
      policy.isPrivileged f.source = policy.isPrivileged g.source := fun f hf g hg hhash =>
    congrArg policy.isPrivileged (Frame.source_eq_of_envelope_eq (hcoll f hf g hg hhash))
  rw [length_part, (map_surge_perm h hsource).count_eq, List.count, List.countP_map,
    List.countP_eq_length_filter, ← length_keptOf, ← filter_kept]
  rfl

/-- **Surge pricing shares capacity.** A set within capacity is left as it is. Beyond it, whatever
collides, the set is cut to the capacity, or to the reserve if that is more, and all that it loses
is returned. As long as the reserve is within capacity and no two different envelopes share a full
hash, privileged transactions fill what is not reserved and ordinary ones the rest, so that no place
is left free. A whitelist never reserves more than the capacity. -/
theorem surge_shares_capacity (s : TxSet) (view : LedgerView σ) (policy : Policy) :
    let capacity := view.maxSetSize
    let p := (s.part policy true).length
    let u := (s.part policy false).length
    let r := min (policy.reserve capacity) u
    let run := s.surge view policy
    let p' := (run.2.part policy true).length
    let u' := (run.2.part policy false).length
    (p + u ≤ capacity → run = ([], s)) ∧
    (capacity < p + u → run.2.size = max capacity r ∧ run.1.length = p + u - max capacity r) ∧
    (capacity < p + u → r ≤ capacity →
      (∀ f ∈ s.transactions, ∀ g ∈ s.transactions,
        f.fullHash = g.fullHash → f.envelope = g.envelope) →
      p' = min p (capacity - r) ∧ u' = min u (capacity - min p (capacity - r)) ∧ r ≤ u' ∧
        p' + u' = capacity) ∧
    ∀ w : Whitelist, (∀ n, w.reserve n ≤ n) ∧
      (capacity < s.size → (s.surge view w.toPolicy).2.size = capacity) := by
  intro capacity p u r run p' u'
  have hparts : p + u = s.size := length_part_add s policy
  refine ⟨fun h => surge_of_le (hparts ▸ h) policy, fun h => ?_, fun h hr hcoll => ?_, fun w => ?_⟩
  · rw [hparts] at h ⊢
    have hsize : run.2.size = max capacity r := size_surge_of_lt h
    have hall : run.1.length + run.2.size = s.size := length_surge_add s view policy
    omega
  · rw [hparts] at h
    have hp : p' = min (capacity - r) p := length_part_surge h hcoll true
    have hu : u' = min (r + (capacity - r - p)) u := length_part_surge h hcoll false
    have hru : r ≤ u := min_le_right _ _
    omega
  · refine ⟨w.reserve_le, fun h => ?_⟩
    rw [size_surge_of_lt h]
    exact max_eq_left ((min_le_left _ _).trans (w.reserve_le capacity))

end TxSet

namespace Sample

/-- An account whose identifier repeats one octet. -/
def account (n : UInt8) : AccountId := ⟨⟨⟨List.replicate 32 n, List.length_replicate⟩⟩⟩

/-- An unsigned transaction with the given source, fee and number. -/
def offer (source : UInt8) (fee : UInt32) (number : SequenceNumber) : Frame :=
  .ofEnvelope .zero ⟨⟨account source, fee, number, none, [.bumpSequence 5]⟩, []⟩

/-- Three transactions of the first account, of which two are the same, and two of others. -/
def crowded : TxSet :=
  .ofFrames .zero [offer 1 100 1, offer 2 300 1, offer 1 100 1, offer 3 200 1, offer 1 100 2]

/-- The first account is privileged, and a third of the capacity is reserved for the others. -/
def firstPrivileged : Whitelist := .ofList none [account 1] 34

end Sample

namespace TxSet

set_option maxRecDepth 100000 in
/-- The case of three places for three privileged and two ordinary transactions, of which one place
is reserved: two privileged ones are left and one ordinary one. -/
theorem capacity_of_crowded :
    let run := Sample.crowded.surge (.ofState Sample.ledger) Sample.firstPrivileged.toPolicy
    (run.2.part Sample.firstPrivileged.toPolicy true).length = 2 ∧
      (run.2.part Sample.firstPrivileged.toPolicy false).length = 1 ∧ run.1.length = 2 := by
  obtain ⟨-, hbeyond, hshares, -⟩ := surge_shares_capacity Sample.crowded (.ofState Sample.ledger)
    Sample.firstPrivileged.toPolicy
  have hp : (Sample.crowded.part Sample.firstPrivileged.toPolicy true).length = 3 := by decide
  have hu : (Sample.crowded.part Sample.firstPrivileged.toPolicy false).length = 2 := by decide
  have hcapacity : (LedgerView.ofState Sample.ledger).maxSetSize = 3 := rfl
  have hreserve : Sample.firstPrivileged.toPolicy.reserve 3 = 1 := by decide
  rw [hp, hu, hcapacity, hreserve] at hbeyond hshares
  obtain ⟨hprivileged, hordinary, -, -⟩ := hshares (by decide) (by decide) (by decide +kernel)
  exact ⟨hprivileged, hordinary, (hbeyond (by decide)).2⟩

end TxSet

end NextLedger
