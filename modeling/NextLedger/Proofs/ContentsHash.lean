import NextLedger.Proofs.Affordability
import NextLedger.Proofs.Surge
import NextLedger.Proofs.Walk.Effect
import NextLedger.TxSet.Wire

/-!
# The contents hash is never stale

A set remembers its contents hash once it is taken, and gives it again without looking. It is
**fresh** if what it remembers, if anything, is the digest of the transactions as they stand, and
these are in canonical order. Of a fresh set the contents hash is the digest taken anew
(`Fresh.contentsHash_eq`), whether it remembers one or not.

A set starts out empty or with the envelopes of a peer, and any number of **steps** follow, each a
change or a question. Every step keeps a set fresh (`Step.fresh`): what changes the transactions or
the previous hash forgets the memo, removals within other algorithms included, and only taking the
hash remembers one. So all sets that can be **reached** are fresh (`Reachable.fresh`), and their
contents hash tells nothing of their history (`contentsHash_never_stale`).
-/

namespace NextLedger

/-! ### Envelopes in canonical order -/

/-- The octets of some frames are those of their envelopes. -/
theorem flatMap_encoded (fs : List Frame) :
    fs.flatMap Frame.encoded = (fs.map Frame.envelope).flatMap Envelope.toBytes := by
  rw [List.flatMap_map]
  exact List.flatMap_congr fun f _ => f.encoded_eq

/-- Frames with the same envelopes, of whatever networks, list them in one canonical order, unless
full hashes collide. -/
theorem map_envelope_canonicalOrder_of_perm {fs gs : List Frame}
    (hperm : (fs.map Frame.envelope).Perm (gs.map Frame.envelope))
    (hcoll : ∀ f ∈ fs, ∀ g ∈ fs, f.fullHash = g.fullHash → f.envelope = g.envelope) :
    (canonicalOrder fs).map Frame.envelope = (canonicalOrder gs).map Frame.envelope := by
  -- The full hash of a frame is that of its envelope's octets, so the envelopes ascend as well.
  have hascending : ∀ hs : List Frame, ((canonicalOrder hs).map Frame.envelope).Pairwise
      fun d e => sha256 d.toBytes ≤ sha256 e.toBytes := by
    intro hs
    rw [List.pairwise_map]
    refine (canonical_canonicalOrder hs).imp fun {f g} hle => ?_
    rwa [← f.fullHash_eq_sha256, ← g.fullHash_eq_sha256]
  refine eq_of_perm_of_ascending ?_ (hascending fs) (hascending gs) ?_
  · intro d hd e he hde
    obtain ⟨f, hf, rfl⟩ := List.mem_map.1 hd
    obtain ⟨g, hg, rfl⟩ := List.mem_map.1 he
    rw [← f.fullHash_eq_sha256, ← g.fullHash_eq_sha256] at hde
    exact hcoll f ((canonicalOrder_perm fs).subset hf) g ((canonicalOrder_perm fs).subset hg) hde
  · have hfs := (canonicalOrder_perm fs).map Frame.envelope
    have hgs := (canonicalOrder_perm gs).map Frame.envelope
    exact hfs.trans (hperm.trans hgs.symm)

namespace TxSet

variable {s t : TxSet}

/-! ### Digests -/

/-- The digest is taken over the previous hash and the transactions alone. -/
theorem digest_congr (hprevious : s.previous = t.previous)
    (htransactions : s.transactions = t.transactions) : s.digest = t.digest := by
  rw [digest, digest, hprevious, htransactions]

/-- In canonical order, sets of the same envelopes have one digest, unless full hashes collide. -/
theorem digest_sort_of_perm (hprevious : s.previous = t.previous)
    (hperm : (s.transactions.map Frame.envelope).Perm (t.transactions.map Frame.envelope))
    (hcoll : ∀ f ∈ s.transactions, ∀ g ∈ s.transactions,
      f.fullHash = g.fullHash → f.envelope = g.envelope) : s.sort.digest = t.sort.digest := by
  have henvelopes := map_envelope_canonicalOrder_of_perm hperm hcoll
  simp only [digest, sort, flatMap_encoded, henvelopes, hprevious]

/-! ### Fresh sets -/

/-- Whether the contents hash that a set remembers, if any, is its digest, and its transactions are
in canonical order. -/
def Fresh (s : TxSet) : Prop := ∀ h, s.memo = some h → Canonical s.transactions ∧ h = s.digest

theorem fresh_of_memo_eq_none (h : s.memo = none) : s.Fresh := fun _ hmemo => by
  simp [h] at hmemo

theorem keptByRemoval_fresh : KeptByRemoval Fresh := fun _ _ _ => fresh_of_memo_eq_none rfl

theorem contentsHash_of_memo_eq_none (h : s.memo = none) :
    s.contentsHash = (s.sort.digest, { s.sort with memo := some s.sort.digest }) := by
  simp only [contentsHash, h]

/-- Taking the contents hash of a set in canonical order leaves its transactions as they are. -/
theorem transactions_contentsHash (h : s.memo = none) (hs : Canonical s.transactions) :
    s.contentsHash.2.transactions = s.transactions := by
  rw [contentsHash_of_memo_eq_none h]
  exact canonicalOrder_of_canonical hs

theorem previous_contentsHash : s.contentsHash.2.previous = s.previous := by
  rw [contentsHash]
  split <;> rfl

/-- **The contents hash of a fresh set is the digest taken anew**, and taking it leaves the set in
canonical order. -/
theorem Fresh.contentsHash_eq (hs : s.Fresh) :
    s.contentsHash = (s.sort.digest, { s.sort with memo := some s.sort.digest }) := by
  cases hmemo : s.memo with
  | none => exact contentsHash_of_memo_eq_none hmemo
  | some h =>
    -- What is remembered is the digest, and sorting would change nothing.
    obtain ⟨hcanonical, rfl⟩ := hs h hmemo
    have horder : canonicalOrder s.transactions = s.transactions :=
      canonicalOrder_of_canonical hcanonical
    have hdigest : s.sort.digest = s.digest := digest_congr rfl horder
    rw [hdigest]
    simp only [contentsHash, hmemo, sort, horder]
    rw [← hmemo]

/-- Taking the contents hash of a set leaves it fresh. -/
theorem Fresh.contentsHash (hs : s.Fresh) : s.contentsHash.2.Fresh := by
  rw [hs.contentsHash_eq]
  intro h hmemo
  obtain rfl : s.sort.digest = h := by simpa using hmemo
  exact ⟨canonical_canonicalOrder s.transactions, rfl⟩

/-! ### Histories -/

/-- What can happen to a set. -/
inductive Step (s : TxSet) : TxSet → Prop
  | add (f : Frame) : Step s (s.add f)
  | remove (f : Frame) : Step s (s.remove f)
  | withPrevious (previous : Hash256) : Step s (s.withPrevious previous)
  | sort : Step s s.sort
  | contentsHash : Step s s.contentsHash.2
  | applyOrder : Step s s.applyOrder.2
  | surge {σ : Type} (view : LedgerView σ) (policy : Policy) : Step s (s.surge view policy).2
  | walk {σ τ : Type} (view : LedgerView σ) (policy : Policy) (h : Handler τ) (store : σ)
      (handler : τ) : Step s (s.walk view policy h store handler).2.set
  | check {σ : Type} (view : LedgerView σ) (policy : Policy) (store : σ) :
      Step s (s.check view policy store).2.set
  | trim {σ : Type} (view : LedgerView σ) (policy : Policy) (store : σ) :
      Step s (s.trim view policy store).2.set

/-- The sets that can come about. -/
inductive Reachable : TxSet → Prop
  | empty (previous : Hash256) : Reachable (empty previous)
  | ofEnvelopes (network : Hash256) (s : EnvelopeSet) : Reachable (ofEnvelopes network s)
  | ofBytes {network : Hash256} {bs : Bytes} {s : TxSet} (hread : ofBytes network bs = .ok s) :
      Reachable s
  | step {s t : TxSet} (hs : Reachable s) (hstep : s.Step t) : Reachable t

/-- Any transactions in any order make a set that can come about. -/
theorem reachable_ofFrames (previous : Hash256) (fs : List Frame) :
    (ofFrames previous fs).Reachable := by
  induction fs using List.reverseRecOn with
  | nil => exact .empty previous
  | append_singleton fs f ih => exact ih.step (.add f)

/-- Every step keeps a set fresh. -/
theorem Step.fresh (hstep : s.Step t) (hs : s.Fresh) : t.Fresh := by
  -- Every change forgets the memo. Only the two questions that take the hash remember one.
  cases hstep with
  | add f => exact fresh_of_memo_eq_none rfl
  | remove f => exact keptByRemoval_fresh s f hs
  | withPrevious previous => exact fresh_of_memo_eq_none rfl
  | sort => exact fresh_of_memo_eq_none rfl
  | contentsHash => exact hs.contentsHash
  | applyOrder => exact hs.contentsHash
  | surge view policy => exact keptByRemoval_fresh.surge hs view policy
  | walk view policy h store handler =>
    exact keptByRemoval_fresh.walk view h hs policy store handler
  | check view policy store => exact keptByRemoval_fresh.check view hs policy store
  | trim view policy store =>
    exact keptByRemoval_fresh.trim view (fresh_of_memo_eq_none rfl) policy store

theorem fresh_of_ofBytes {network : Hash256} {bs : Bytes} (hread : ofBytes network bs = .ok s) :
    s.Fresh := by
  rcases hset : Wire.envelopeSet.decode bs with fault | p
  · simp [ofBytes, hset, Except.map] at hread
  · obtain rfl : ofEnvelopes network p.1 = s := by simpa [ofBytes, hset, Except.map] using hread
    exact fresh_of_memo_eq_none rfl

/-- All sets that can come about are fresh. -/
theorem Reachable.fresh (hs : s.Reachable) : s.Fresh := by
  induction hs with
  | empty previous => exact fresh_of_memo_eq_none rfl
  | ofEnvelopes network s => exact fresh_of_memo_eq_none rfl
  | ofBytes hread => exact fresh_of_ofBytes hread
  | step _ hstep ih => exact hstep.fresh ih

/-- **The contents hash is never stale.** Whatever happened to a set, a hash that it remembers is
the digest of the previous hash and the transactions in their current order, which is canonical. The
contents hash is always the digest that would be taken anew, and taking it leaves the set in
canonical order. It depends on the previous hash and the envelopes alone, as long as no two
different ones have one full hash: other sets of the same have the same contents hash, whatever
happened to them. -/
theorem contentsHash_never_stale (s : TxSet) (hs : s.Reachable) :
    (∀ h, s.memo = some h → isCanonical s.transactions = true ∧
      h = sha256 (s.previous.toBytes ++ s.transactions.flatMap Frame.encoded)) ∧
    (s.contentsHash.1 =
        sha256 (s.previous.toBytes ++ (canonicalOrder s.transactions).flatMap Frame.encoded) ∧
      s.contentsHash.2.previous = s.previous ∧
      s.contentsHash.2.transactions = canonicalOrder s.transactions ∧
      s.contentsHash.2.memo = some s.contentsHash.1 ∧
      s.contentsHash.2.transactions.Perm s.transactions ∧
      isCanonical s.contentsHash.2.transactions = true) ∧
    ∀ t : TxSet, t.Reachable → s.previous = t.previous →
      (s.transactions.map Frame.envelope).Perm (t.transactions.map Frame.envelope) →
      (∀ f ∈ s.transactions, ∀ g ∈ s.transactions,
        f.fullHash = g.fullHash → f.envelope = g.envelope) →
      s.contentsHash.1 = t.contentsHash.1 := by
  refine ⟨fun h hmemo => ?_, ?_, fun t ht hprevious hperm hcoll => ?_⟩
  · exact (hs.fresh h hmemo).imp_left isCanonical_iff.2
  · rw [hs.fresh.contentsHash_eq]
    refine ⟨rfl, rfl, rfl, rfl, canonicalOrder_perm _, ?_⟩
    exact isCanonical_iff.2 (canonical_canonicalOrder _)
  · rw [hs.fresh.contentsHash_eq, ht.fresh.contentsHash_eq]
    exact digest_sort_of_perm hprevious hperm hcoll

/-- The case of a set that took its hash, then lost a transaction, and took its hash again: it is
the hash of a set that was received without that transaction. -/
theorem contentsHash_after_removal :
    let early := ((empty .zero).add (Sample.signed 90 1)).add (Sample.signed 100 1)
    let late := early.contentsHash.2.remove (Sample.signed 90 1)
    let received := ofEnvelopes .zero ⟨.zero, [(Sample.signed 100 1).envelope]⟩
    late.contentsHash.2.memo = some received.contentsHash.1 ∧
      received.contentsHash.1 = sha256 (late.previous.toBytes ++
        late.contentsHash.2.transactions.flatMap Frame.encoded) := by
  intro early late received
  have hearly : early.Reachable := ((Reachable.empty .zero).step (.add _)).step (.add _)
  have hlate : late.Reachable := (hearly.step .contentsHash).step (.remove _)
  have hreceived : received.Reachable := .ofEnvelopes .zero _
  have hleft : late.transactions = [Sample.signed 100 1] := by decide +kernel
  obtain ⟨-, ⟨hdigest, -, htransactions, hmemo, -⟩, hhistory⟩ :=
    contentsHash_never_stale late hlate
  have hsame : late.contentsHash.1 = received.contentsHash.1 := by
    refine hhistory received hreceived rfl ?_ ?_
    · rw [hleft]
      exact .refl _
    · rw [hleft]
      intro f hf g hg _
      rw [List.mem_singleton.1 hf, List.mem_singleton.1 hg]
  rw [hmemo, ← hsame, htransactions]
  exact ⟨rfl, hdigest⟩

end TxSet

end NextLedger
