import NextLedger.Proofs.Affordability
import NextLedger.Proofs.Walk.Trimming

/-!
# Greedy chains

What trimming leaves of an account can be said without a walk. Among some candidates, a **greedy
chain** after a number takes the candidate with the next number that has the least full hash, then
goes on after it, and stops where no candidate has the next number. The candidates of an account are
its sound transactions, and the chain starts after the number in the account's entry.

A walk in walk order accepts just this chain (`greedyChain_accepted`): stale numbers, rivals with
one number, duplicates and gaps are all passed over. So trimming leaves the chain of an account that
can pay for it, and nothing of any other (`trim_leaves_greedy_chains`).
-/

namespace NextLedger

/-! ### Chains -/

section Chains

variable {candidate : Frame → Prop}

/-- Whether a transaction comes next after a number: of the candidates with the next number, it has
the least full hash. -/
structure ComesNext (candidate : Frame → Prop) (n : Int) (f : Frame) : Prop where
  isCandidate : candidate f
  number : f.sequence.toInt = n + 1
  least : ∀ g, candidate g → g.sequence.toInt = n + 1 → f.fullHash ≤ g.fullHash

/-- Whether some transactions are a **greedy chain** after a number. -/
inductive GreedyChain (candidate : Frame → Prop) : Int → List Frame → Prop
  /-- No candidate has the next number. -/
  | stop {n : Int} (h : ∀ f, candidate f → f.sequence.toInt ≠ n + 1) : GreedyChain candidate n []
  | next {n : Int} {f : Frame} {fs : List Frame} (h : ComesNext candidate n f)
      (hfs : GreedyChain candidate (n + 1) fs) : GreedyChain candidate n (f :: fs)

/-- A chain depends only on the candidates with later numbers. -/
theorem GreedyChain.congr {candidate' : Frame → Prop} {n : Int} {fs : List Frame}
    (hiff : ∀ f, n < f.sequence.toInt → (candidate f ↔ candidate' f))
    (h : GreedyChain candidate n fs) : GreedyChain candidate' n fs := by
  induction h with
  | stop hstop =>
    refine .stop fun f hf hnumber => ?_
    exact hstop f ((hiff f (by omega)).2 hf) hnumber
  | next hnext _ ih =>
    obtain ⟨hcandidate, hnumber, hleast⟩ := hnext
    refine .next ⟨(hiff _ (by omega)).1 hcandidate, hnumber, fun g hg hgnumber => ?_⟩
      (ih fun f hf => hiff f (by omega))
    exact hleast g ((hiff g (by omega)).2 hg) hgnumber

/-- Where no two candidates share a full hash, there is one chain. -/
theorem GreedyChain.unique {n : Int} {fs gs : List Frame}
    (hcoll : ∀ f g, candidate f → candidate g → f.fullHash = g.fullHash → f = g)
    (hf : GreedyChain candidate n fs) (hg : GreedyChain candidate n gs) : fs = gs := by
  induction hf generalizing gs with
  | stop hstop =>
    cases hg with
    | stop => rfl
    | next hnext => exact absurd hnext.number (hstop _ hnext.isCandidate)
  | next hnext _ ih =>
    cases hg with
    | stop hstop => exact absurd hnext.number (hstop _ hnext.isCandidate)
    | next hnext' hgs =>
      have heq := hcoll _ _ hnext.isCandidate hnext'.isCandidate (Std.le_antisymm
        (hnext.least _ hnext'.isCandidate hnext'.number)
        (hnext'.least _ hnext.isCandidate hnext.number))
      rw [heq, ih hgs]

end Chains

/-! ### Chains along a walk -/

section Along

variable {good : Frame → Prop} {n : Int} {f : Frame} {fs chain : List Frame}

/-- The first of some transactions in walk order heads their chain if it is good and has the next
number. -/
theorem GreedyChain.take (hbefore : ∀ g ∈ fs, f.WalksBefore g) (hgood : good f)
    (hnext : f.sequence.toInt = n + 1)
    (h : GreedyChain (fun g => g ∈ fs ∧ good g) (n + 1) chain) :
    GreedyChain (fun g => g ∈ f :: fs ∧ good g) n (f :: chain) := by
  refine .next ⟨⟨List.mem_cons_self, hgood⟩, hnext, fun g hg hgnumber => ?_⟩
    (h.congr fun g hg => ?_)
  · rcases List.mem_cons.1 hg.1 with rfl | hmem
    · exact Std.le_refl _
    · refine (hbefore g hmem).2 (Int64.le_iff_toInt_le.2 ?_)
      omega
  · -- What comes later in the chain has a later number than the head.
    have hne : g ≠ f := by
      rintro rfl
      omega
    simp [hne]

/-- The first of some transactions in walk order is passed over if it is not good or does not have
the next number. -/
theorem GreedyChain.skip (hbefore : ∀ g ∈ fs, f.WalksBefore g)
    (hskip : ¬ (good f ∧ f.sequence.toInt = n + 1))
    (h : GreedyChain (fun g => g ∈ fs ∧ good g) n chain) :
    GreedyChain (fun g => g ∈ f :: fs ∧ good g) n chain := by
  rcases Int.lt_or_le (n + 1) f.sequence.toInt with hgap | hstale
  · -- The next number is missing here, and what follows has no lower number.
    have hlater : ∀ g ∈ f :: fs, n + 1 < g.sequence.toInt :=
      List.forall_mem_cons.2 ⟨hgap, fun g hg =>
        lt_of_lt_of_le hgap (Int64.le_iff_toInt_le.1 (hbefore g hg).1)⟩
    cases h with
    | stop => exact .stop fun g hg hgnumber => (hlater g hg.1).ne' hgnumber
    | next hnext =>
      have hmem := List.mem_cons_of_mem f hnext.isCandidate.1
      exact absurd hnext.number (hlater _ hmem).ne'
  · refine h.congr fun g hg => ?_
    have hne : g = f → ¬ good g := by
      rintro rfl hgood
      exact hskip ⟨hgood, by omega⟩
    rw [List.mem_cons]
    tauto

end Along

/-! ### The walk of an account -/

section Accepted

variable {view : LedgerView Unit} {a : AccountId} {entry : AccountEntry} {fs : List Frame}

/-- **The chain of a walk.** Along an account's transactions in walk order, the greedy chain of the
sound ones is accepted. -/
theorem greedyChain_accepted (exempt : Bool) (last : SequenceNumber)
    (hload : (view.load a ()).1 = .ok entry) (hsource : ∀ f ∈ fs, f.source = a)
    (hfit : ∀ f ∈ fs, (view.header.minFee f.operationCount : Int) ≤ Amount.greatest)
    (hwalk : fs.Pairwise Frame.WalksBefore) (hcurrent : 0 ≤ entry.current last) :
    GreedyChain (fun f => f ∈ fs ∧ f.Sound view.header exempt) (entry.current last)
      (accepted view exempt last fs) := by
  induction fs generalizing last with
  | nil => exact .stop (by simp)
  | cons f fs ih =>
    obtain ⟨hfa, hsource⟩ := List.forall_mem_cons.1 hsource
    obtain ⟨hffit, hfit⟩ := List.forall_mem_cons.1 hfit
    obtain ⟨hbefore, hwalk⟩ := List.pairwise_cons.1 hwalk
    have hstep := Frame.verdict_eq_valid_iff_of_load exempt last hload hfa hffit
    by_cases hvalid : f.verdict view exempt last = .valid
    · obtain ⟨hsound, hnext⟩ := hstep.1 hvalid
      have hf : entry.current f.sequence = entry.current last + 1 := by
        rw [AccountEntry.current_of_pos (by omega), hnext]
      have htail := ih f.sequence hsource hfit hwalk (by omega)
      rw [hf] at htail
      rw [accepted_cons_of_valid hvalid]
      exact htail.take hbefore hsound hnext
    · rw [accepted_cons_of_ne_valid hvalid]
      exact (ih last hsource hfit hwalk hcurrent).skip hbefore (mt hstep.2 hvalid)

end Accepted

/-! ### Trimming -/

namespace TxSet

variable {s : TxSet} {ledger : LedgerState} {policy : Policy} {a : AccountId}

/-- The transactions of an account that may stay in a set. -/
def Candidate (s : TxSet) (ledger : LedgerState) (policy : Policy) (a : AccountId) (f : Frame) :
    Prop :=
  f ∈ s.transactions ∧ f.source = a ∧ f.Sound ledger.lastClosed.header (policy.isPrivileged a)

/-- Of an account with an entry what is accepted survives, if the account can pay for it. -/
theorem survivors_eq_ite {entry : AccountEntry} (hfit : s.AmountsFit (.ofState ledger))
    (hload : ledger.load a = .ok entry) {chain : List Frame}
    (hchain : accepted (.ofState ledger) (policy.isPrivileged a) 0
      (groupOf (canonicalOrder s.transactions) a) = chain) :
    survivors (.ofState ledger) policy (canonicalOrder s.transactions) a =
      if entry.Affords ledger.lastClosed.header (policy.isPrivileged a) chain then chain
      else [] := by
  rw [survivors, finalTally, hchain]
  by_cases hnil : chain = []
  · rw [hnil, ite_self, ite_self]
  · obtain ⟨f, hf⟩ := List.exists_mem_of_ne_nil chain hnil
    have hsublist : chain.Sublist (groupOf (canonicalOrder s.transactions) a) :=
      hchain ▸ accepted_sublist _ _ _ _
    obtain ⟨hfs, rfl⟩ := mem_groupOf.1 (hsublist.subset hf)
    have hbalance := hfit.minimumBalance f ((canonicalOrder_perm _).subset hfs) entry hload
    have hpays := settlement_eq_nil_iff_affords (groupOf (canonicalOrder s.transactions) f.source)
      (policy.isPrivileged f.source) hload hbalance (hfit.totalFees_le hsublist)
    simp only [hpays, hnil, false_or]
    rfl

/-- What is accepted of an account with an entry is its greedy chain. -/
theorem greedyChain_candidates {entry : AccountEntry} (policy : Policy)
    (hfit : s.AmountsFit (.ofState ledger))
    (hload : ledger.load a = .ok entry) (hsequence : 0 ≤ entry.sequence.toInt) :
    GreedyChain (s.Candidate ledger policy a) entry.sequence.toInt
      (accepted (.ofState ledger) (policy.isPrivileged a) 0
        (groupOf (canonicalOrder s.transactions) a)) := by
  have hmem : ∀ f, f ∈ groupOf (canonicalOrder s.transactions) a ↔
      f ∈ s.transactions ∧ f.source = a := fun f => by
    rw [mem_groupOf, (canonicalOrder_perm _).mem_iff]
  have hcurrent : entry.current 0 = entry.sequence.toInt := by simp [AccountEntry.current]
  have hchain := greedyChain_accepted (policy.isPrivileged a) 0 hload
    (fun f hf => ((hmem f).1 hf).2) (fun f hf => hfit.minFee f ((hmem f).1 hf).1)
    (pairwise_groupOf (canonical_canonicalOrder s.transactions) a)
    (by rw [hcurrent]; exact hsequence)
  rw [hcurrent] at hchain
  refine hchain.congr fun f _ => ?_
  rw [hmem, Candidate, and_assoc]
  rfl

/-- An account without an entry has no survivors. -/
theorem survivors_eq_nil (hload : ∀ entry, ledger.load a ≠ .ok entry) (fs : List Frame) :
    survivors (.ofState ledger) policy fs a = [] := by
  have haccepted : accepted (.ofState ledger) (policy.isPrivileged a) 0 (groupOf fs a) = [] := by
    refine List.eq_nil_iff_forall_not_mem.2 fun f hf => ?_
    obtain ⟨last, hvalid⟩ := exists_verdict_of_mem_accepted hf
    obtain ⟨entry, hentry⟩ := exists_load_of_verdict hvalid
    rw [(mem_groupOf.1 ((accepted_sublist _ _ 0 _).subset hf)).2] at hentry
    exact hload entry hentry
  rw [survivors, haccepted, ite_self]

/-- **What trimming computes.** Over a ledger whose accounts have no negative sequence number,
trimming a set leaves of each account one copy each of its greedy chain, if the account can pay for
the chain, and otherwise nothing. What is removed is all the rest, counted with multiplicity. -/
theorem trim_leaves_greedy_chains (s : TxSet) (ledger : LedgerState) (policy : Policy)
    (network : Hash256) (hnetwork : ∀ f ∈ s.transactions, f.network = network)
    (hcoll : ∀ f ∈ s.transactions, ∀ g ∈ s.transactions,
      f.fullHash = g.fullHash → f.envelope = g.envelope)
    (hsequence : ∀ a entry, ledger.load a = .ok entry → 0 ≤ entry.sequence.toInt)
    (hfit : s.AmountsFit (.ofState ledger)) :
    let run := s.trim (.ofState ledger) policy ()
    let left a := run.2.set.transactions.filter fun f => f.source == a
    run.1 = .ok () ∧
    (∀ a, (∀ entry, ledger.load a ≠ .ok entry) → left a = []) ∧
    (∀ a entry, ledger.load a = .ok entry →
      ∃ chain, GreedyChain (s.Candidate ledger policy a) entry.sequence.toInt chain ∧
        (∀ chain', GreedyChain (s.Candidate ledger policy a) entry.sequence.toInt chain' →
          chain' = chain) ∧
        (left a).Perm
          (if entry.Affords ledger.lastClosed.header (policy.isPrivileged a) chain then chain
          else [])) ∧
    (run.2.removed ++ run.2.set.transactions).Perm s.transactions := by
  intro run left
  have hdistinct : NoCollision s.transactions := noCollision_of_network hnetwork hcoll
  have hrange : s.NoOverflow (.ofState ledger) policy := hfit.noOverflow policy
  have hleft : ∀ a, (left a).Perm
      (survivors (.ofState ledger) policy (canonicalOrder s.transactions) a) :=
    filter_trimmed_perm hdistinct hrange
  refine ⟨?_, fun a hload => ?_, fun a entry hload => ?_, perm_trim hdistinct hrange⟩
  · simp only [run, trim_eq_dropAll hrange]
  · exact List.perm_nil.1 (survivors_eq_nil hload (canonicalOrder s.transactions) ▸ hleft a)
  · have hchain := greedyChain_candidates policy hfit hload (hsequence a entry hload)
    refine ⟨_, hchain, fun chain' hchain' => ?_, ?_⟩
    · exact hchain'.unique (fun f g hf hg => hdistinct f hf.1 g hg.1) hchain
    · rw [← survivors_eq_ite hfit hload rfl]
      exact hleft a

set_option maxRecDepth 100000 in
/-- The case of a contested set: the rival that offers too little goes, and so does one of the two
copies. -/
theorem trim_contested :
    let run := Sample.contested.trim (.ofState Sample.ledger) Whitelist.disabled.toPolicy ()
    run.1 = .ok () ∧
      (run.2.set.transactions.filter fun f => f.source == Sample.entry.id).Perm
        [Sample.signed 100 1, Sample.signed 100 2] := by
  obtain ⟨hok, -, hleft, -⟩ := trim_leaves_greedy_chains Sample.contested Sample.ledger
    Whitelist.disabled.toPolicy .zero (by decide) (by decide +kernel) Sample.sequence_nonneg
    Sample.amountsFit_contested
  obtain ⟨chain, -, hunique, hperm⟩ := hleft Sample.entry.id Sample.entry (by decide)
  have hfirst := (Sample.sound_signed_iff (by decide +kernel : (Sample.signed 100 1).isSigned)).2
    (by decide)
  have hsecond := (Sample.sound_signed_iff (by decide +kernel : (Sample.signed 100 2).isSigned)).2
    (by decide)
  have hrival := mt (Sample.sound_signed_iff
    (by decide +kernel : (Sample.signed 90 1).isSigned)).1 (by decide)
  have hchain : [Sample.signed 100 1, Sample.signed 100 2] = chain := by
    refine hunique _ (.next ⟨⟨by decide, rfl, hfirst⟩, rfl, fun g hg hnumber => ?_⟩
      (.next ⟨⟨by decide, rfl, hsecond⟩, rfl, fun g hg hnumber => ?_⟩
        (.stop fun g hg hnumber => ?_)))
    · rcases Sample.mem_contested hg.1 with rfl | rfl | rfl
      · exact absurd hg.2.2 hrival
      · exact absurd hnumber (by decide)
      · exact Std.le_refl _
    · rcases Sample.mem_contested hg.1 with rfl | rfl | rfl
      · exact absurd hnumber (by decide)
      · exact Std.le_refl _
      · exact absurd hnumber (by decide)
    · rcases Sample.mem_contested hg.1 with rfl | rfl | rfl <;> exact absurd hnumber (by decide)
  rw [← hchain, if_pos (by decide)] at hperm
  exact ⟨hok, hperm⟩

end TxSet

end NextLedger
