import NextLedger.Proofs.ContentsHash
import NextLedger.Proofs.Walk.Trimming
import NextLedger.Proofs.Wire

/-!
# Proposer and peer agree

A proposer cuts a candidate set down to capacity, trims it, takes its contents hash and sends its
octets. A peer that stands on the same ledger and network reads the octets. It comes to the same
contents hash, and its check passes (`proposer_and_peer_agree`).

Three facts carry this. Reading gives back the very transactions that were sent, in their order. The
set that was trimmed ascends by full hash, so that sorting it again, on either side, changes
nothing. And a walk over what trimming leaves finds nothing more.
-/

namespace NextLedger

namespace TxSet

/-! ### Sending -/

/-- **What is sent is received.** A peer on the network of all transactions reads back the set,
with its contents hash yet to be taken. -/
theorem ofBytes_toBytes {s : TxSet} {network : Hash256}
    (hnetwork : ∀ f ∈ s.transactions, f.network = network)
    (hfits : ∀ f ∈ s.transactions, Wire.envelope.Fits f.envelope)
    (hsize : s.size < UInt64.size) :
    ofBytes network s.toBytes = .ok (ofFrames s.previous s.transactions) := by
  have hset : Wire.envelopeSet.Fits s.toEnvelopes := by
    refine ⟨trivial, ?_, ?_⟩
    · simpa [toEnvelopes, size] using hsize
    · simpa [toEnvelopes] using hfits
  rw [ofBytes_toBytes_of_fits network hset, ofEnvelopes, toEnvelopes,
    map_ofEnvelope_map_envelope hnetwork]

/-- A set in canonical order whose contents hash is taken before it is sent is received as it was,
and the peer comes to the same contents hash. -/
theorem exists_received {s : TxSet} {network : Hash256} (hmemo : s.memo = none)
    (hs : Canonical s.transactions) (hnetwork : ∀ f ∈ s.transactions, f.network = network)
    (hfits : ∀ f ∈ s.transactions, Wire.envelope.Fits f.envelope)
    (hsize : s.size < UInt64.size) :
    ∃ received, ofBytes network s.contentsHash.2.toBytes = .ok received ∧ received.memo = none ∧
      received.previous = s.previous ∧ received.transactions = s.transactions ∧
        received.contentsHash.1 = s.contentsHash.1 := by
  have hsent : s.contentsHash.2.transactions = s.transactions := transactions_contentsHash hmemo hs
  have hread : ofBytes network s.contentsHash.2.toBytes =
      .ok (ofFrames s.previous s.transactions) := by
    rw [ofBytes_toBytes, previous_contentsHash, hsent]
    · rwa [hsent]
    · rwa [hsent]
    · rwa [size, hsent]
  refine ⟨_, hread, rfl, rfl, rfl, ?_⟩
  rw [contentsHash_of_memo_eq_none hmemo, contentsHash_of_memo_eq_none rfl]
  exact digest_congr rfl rfl

/-! ### Agreement -/

/-- A set that was trimmed passes its check on the ledger for which it was trimmed, as long as it
is built there and within capacity. -/
theorem check_of_trimmed {s t : TxSet} {view : LedgerView Unit} {policy : Policy}
    (hdistinct : NoCollision s.transactions) (hrange : s.NoOverflow view policy)
    (hprevious : s.previous = view.lastClosed.hash) (hsize : s.size ≤ view.maxSetSize)
    (htprevious : t.previous = (s.trimmed view policy).previous)
    (ht : t.transactions = (s.trimmed view policy).transactions) :
    (t.check view policy ()).1 = .ok () := by
  refine check_eq_ok_iff_findings.2 ⟨?_, ?_, ?_, ?_⟩
  · rw [htprevious, previous_trimmed hrange, hprevious]
  · rw [size, ht]
    exact (size_trimmed_le hrange).trans hsize
  · rw [ht]
    exact canonical_trimmed hrange
  · rw [ht]
    exact findings_trimmed hdistinct hrange

/-- **Proposer and peer agree.** On a ledger, under any whitelist, and as long as nothing overflows,
cutting a set down to capacity and trimming it succeeds. A peer on the same network reads the octets
of what is left, comes to the same contents hash, and accepts the set, before and after it takes
that hash. The lengths within the envelopes have to fit eight octets, as those of all values in
memory do. -/
theorem proposer_and_peer_agree (s : TxSet) (ledger : LedgerState) (w : Whitelist)
    (network : Hash256) (hprevious : s.previous = ledger.lastClosed.hash)
    (hnetwork : ∀ f ∈ s.transactions, f.network = network)
    (hcoll : ∀ f ∈ s.transactions, ∀ g ∈ s.transactions,
      f.fullHash = g.fullHash → f.envelope = g.envelope)
    (hfits : ∀ f ∈ s.transactions, Wire.envelope.Fits f.envelope)
    (hrange : (s.surge (.ofState ledger) w.toPolicy).2.NoOverflow (.ofState ledger) w.toPolicy) :
    let view := LedgerView.ofState ledger
    let run := (s.surge view w.toPolicy).2.trim view w.toPolicy ()
    let sent := run.2.set.contentsHash
    run.1 = .ok () ∧
    ∃ received, ofBytes network sent.2.toBytes = .ok received ∧
      received.contentsHash.1 = sent.1 ∧
      (received.check view w.toPolicy ()).1 = .ok () ∧
      (received.contentsHash.2.check view w.toPolicy ()).1 = .ok () := by
  intro view run sent
  -- What surge pricing leaves is a part of the set, and trimming leaves a part of that.
  have hcut : (s.surge view w.toPolicy).2.size ≤ view.maxSetSize :=
    size_surge_le s view w.toPolicy (w.reserve_le view.maxSetSize)
  have hdistinct : NoCollision (s.surge view w.toPolicy).2.transactions :=
    (noCollision_of_network hnetwork hcoll).subset (surge_sublist s view w.toPolicy).subset
  have hcanonical : Canonical run.2.set.transactions := canonical_trimmed hrange
  have hsub : run.2.set.transactions ⊆ s.transactions := fun f hf =>
    (surge_sublist s view w.toPolicy).subset
      ((canonicalOrder_perm _).subset ((trimmed_sublist hrange).subset hf))
  have hsize : run.2.set.size < UInt64.size := by
    have hlength := (trimmed_sublist hrange).length_le
    rw [(canonicalOrder_perm _).length_eq] at hlength
    have hmax : view.maxSetSize < UInt32.size := view.header.maxSetSize.toNat_lt
    exact lt_of_le_of_lt (hlength.trans hcut) (hmax.trans (by decide))
  obtain ⟨received, hread, hmemo, hreceivedprevious, hreceived, hhash⟩ :=
    exists_received (memo_trimmed hrange) hcanonical (fun f hf => hnetwork f (hsub hf))
      (fun f hf => hfits f (hsub hf)) hsize
  have hcheck : ∀ t : TxSet, t.previous = run.2.set.previous →
      t.transactions = run.2.set.transactions → (t.check view w.toPolicy ()).1 = .ok () :=
    fun t htprevious ht => check_of_trimmed hdistinct hrange
      ((previous_surge s view w.toPolicy).trans hprevious) hcut htprevious ht
  refine ⟨?_, received, hread, hhash, hcheck received hreceivedprevious hreceived, ?_⟩
  · exact congrArg Prod.fst (trim_eq_dropAll hrange)
  · refine hcheck _ ?_ ?_
    · exact previous_contentsHash.trans hreceivedprevious
    · exact (transactions_contentsHash hmemo (hreceived ▸ hcanonical)).trans hreceived

set_option maxRecDepth 100000 in
/-- The case of a contested set beyond capacity, of which a peer accepts what is left. -/
theorem agreement_on_contested :
    let view := LedgerView.ofState Sample.ledger
    let policy := Whitelist.disabled.toPolicy
    ∃ received,
      ofBytes .zero ((Sample.contested.surge view policy).2.trimmed view
        policy).contentsHash.2.toBytes = .ok received ∧
      (received.check view policy ()).1 = .ok () := by
  have hfits : ∀ f ∈ Sample.contested.transactions, Wire.envelope.Fits f.envelope := by
    intro f hf
    rcases Sample.mem_contested hf with rfl | rfl | rfl <;> exact Sample.fits_signed _ _
  have hrange := (Sample.amountsFit_contested.sublist (surge_sublist Sample.contested
    (.ofState Sample.ledger) Whitelist.disabled.toPolicy)).noOverflow Whitelist.disabled.toPolicy
  obtain ⟨-, received, hread, -, hcheck, -⟩ := proposer_and_peer_agree Sample.contested
    Sample.ledger .disabled .zero rfl (by decide) (by decide +kernel) hfits hrange
  exact ⟨received, hread, hcheck⟩

end TxSet

end NextLedger
