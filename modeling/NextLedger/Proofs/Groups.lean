import NextLedger.Proofs.Orders

/-!
# The groups of a walk

A walk visits each account that occurs in a set once, in ascending order, and of an account the
transactions by sequence number, those of one number by full hash: the group is sorted by number
with a stable sort, and the set that it is taken from ascends by full hash. As long as no two
different transactions share a full hash, this **walk order** leaves nothing open: two groups in it
with the same members are equal (`eq_of_perm_of_walkOrder`), in whatever order their members were
collected.
-/

namespace NextLedger

/-! ### Sources -/

namespace AccountMap

variable {ν : Type}

theorem mem_map_fst_insertEntry {a b : AccountId} {v : ν} {es : List (AccountId × ν)} :
    b ∈ (insertEntry a v es).map (·.1) ↔ b = a ∨ b ∈ es.map (·.1) := by
  induction es with
  | nil => simp [insertEntry]
  | cons e es ih =>
    simp only [insertEntry]
    split
    · simp
    · rename_i hnlt
      split
      · simp only [List.map_cons, List.mem_cons, ih]
        tauto
      · rename_i hngt
        have heq : a = e.1 := AccountId.eq_of_not_lt hnlt hngt
        simp [heq]

/-- The accounts of a map made of some entries are the accounts of the entries. -/
theorem mem_map_fst_ofList {b : AccountId} {es : List (AccountId × ν)} :
    b ∈ (ofList es).entries.map (·.1) ↔ b ∈ es.map (·.1) := by
  suffices h : ∀ m : AccountMap ν, b ∈ (es.foldl (fun m e => m.insert e.1 e.2) m).entries.map (·.1)
      ↔ b ∈ m.entries.map (·.1) ∨ b ∈ es.map (·.1) by
    simpa [ofList, empty] using h empty
  -- The entries are put into a map that grows, so the statement is about any map to start from.
  induction es with
  | nil => simp
  | cons e es ih =>
    intro m
    rw [List.foldl_cons, ih, insert, mem_map_fst_insertEntry, List.map_cons, List.mem_cons]
    tauto

theorem nodup_map_fst (m : AccountMap ν) : (m.entries.map (·.1)).Nodup := by
  rw [List.Nodup, List.pairwise_map]
  refine m.ascending.imp fun {p q} hlt heq => ?_
  rw [heq] at hlt
  exact AccountId.lt_irrefl q.1 hlt

end AccountMap

/-- The accounts that a walk visits are those that occur. -/
@[simp] theorem mem_sources {fs : List Frame} {a : AccountId} :
    a ∈ sources fs ↔ ∃ f ∈ fs, f.source = a := by
  rw [sources, AccountMap.mem_map_fst_ofList]
  simp

theorem nodup_sources (fs : List Frame) : (sources fs).Nodup := AccountMap.nodup_map_fst _

/-! ### Walk order -/

/-- Whether a walk may meet `f` before `g`, both of one account: by sequence number, then by full
hash. -/
def Frame.WalksBefore (f g : Frame) : Prop :=
  f.sequence ≤ g.sequence ∧ (g.sequence ≤ f.sequence → f.fullHash ≤ g.fullHash)

theorem groupOf_perm (fs : List Frame) (a : AccountId) :
    (groupOf fs a).Perm (fs.filter fun f => f.source == a) :=
  Sorting.sortBy_perm _ _

@[simp] theorem mem_groupOf {fs : List Frame} {a : AccountId} {f : Frame} :
    f ∈ groupOf fs a ↔ f ∈ fs ∧ f.source = a := by
  simp [groupOf]

/-- An account that does not occur has an empty group. -/
theorem groupOf_eq_nil {fs : List Frame} {a : AccountId} (ha : a ∉ sources fs) :
    groupOf fs a = [] :=
  List.eq_nil_iff_forall_not_mem.2 fun f hf => ha (mem_sources.2 ⟨f, mem_groupOf.1 hf⟩)

theorem Frame.sequenceLe_trans (f g h : Frame) (hfg : f.sequenceLe g = true)
    (hgh : g.sequenceLe h = true) : f.sequenceLe h = true := by
  simp only [sequenceLe, decide_eq_true_eq] at *
  exact Std.le_trans hfg hgh

theorem Frame.sequenceLe_total (f g : Frame) :
    f.sequenceLe g = true ∨ g.sequenceLe f = true := by
  simp only [sequenceLe, decide_eq_true_eq]
  exact Std.le_total

theorem pairwise_groupOf {fs : List Frame} (h : Canonical fs) (a : AccountId) :
    (groupOf fs a).Pairwise Frame.WalksBefore := by
  have hties := Sorting.pairwise_sortBy_of_ties Frame.sequenceLe_trans Frame.sequenceLe_total
    (List.Pairwise.filter (fun f => f.source == a) h)
  exact hties.imp fun hle => by simpa [Frame.sequenceLe, Frame.WalksBefore] using hle

/-- Two lists in walk order with the same members are equal, unless full hashes collide. -/
theorem eq_of_perm_of_walkOrder {fs gs : List Frame} (hcoll : NoCollision fs)
    (hf : fs.Pairwise Frame.WalksBefore) (hg : gs.Pairwise Frame.WalksBefore) (h : fs.Perm gs) :
    fs = gs := by
  -- Two that may stand either way round have one number and one full hash.
  refine List.Perm.eq_of_pairwise (fun f g hfs hgs hfg hgf => ?_) hf hg h
  refine hcoll f hfs g (h.mem_iff.2 hgs) (Std.le_antisymm ?_ ?_)
  · exact hfg.2 hgf.1
  · exact hgf.2 hfg.1

/-- A part of what an account lists, one list for each account, belongs to that account alone. -/
theorem filter_flatMap_of_source {as : List AccountId} {part : AccountId → List Frame}
    (hnodup : as.Nodup) (hpart : ∀ a, ∀ f ∈ part a, f.source = a) (a : AccountId) :
    (as.flatMap part).filter (fun f => f.source == a) = if a ∈ as then part a else [] := by
  induction as with
  | nil => simp
  | cons b as ih =>
    obtain ⟨hb, hnodup⟩ := List.nodup_cons.1 hnodup
    rw [List.flatMap_cons, List.filter_append, ih hnodup]
    by_cases hab : a = b
    · subst hab
      have hall : (part a).filter (fun f => f.source == a) = part a :=
        List.filter_eq_self.2 fun f hf => by simp [hpart a f hf]
      simp [hall, hb]
    · have hnone : (part b).filter (fun f => f.source == a) = [] :=
        List.filter_eq_nil_iff.2 fun f hf => by simp [hpart b f hf, Ne.symm hab]
      simp [hnone, hab]

end NextLedger
