import NextLedger.Proofs.ContentsHash
import NextLedger.Proofs.Wire.Exact

/-!
# Hashes as commitments

The contents hash commits to a set, and the payload of an envelope to a network and a transaction:
each is the digest of octets that can be read in one way only. Those of a set have neither a count
nor separators. But no envelope's octets are the beginning of another's, so the first envelope can
be cut off the front, then the second, and so on to the end (`Form.ReadsBack.flatMap_inj`).

Nothing is assumed of the digest. Two sets with one contents hash are built on one ledger and have
the same envelopes in canonical order, or the octets that were hashed are a **collision**: they
differ and have one digest. The same holds of payloads (`commitments_are_unambiguous`).
-/

namespace NextLedger

/-! ### Collisions -/

/-- Whether two strings of octets are different and have one digest. -/
structure Collision (x y : Bytes) : Prop where
  ne : x ≠ y
  sha256_eq : sha256 x = sha256 y

theorem eq_or_collision {x y : Bytes} (h : sha256 x = sha256 y) : x = y ∨ Collision x y := by
  by_cases hxy : x = y
  · exact .inl hxy
  · exact .inr ⟨hxy, h⟩

/-! ### Encodings in a row -/

namespace Wire

/-- A form that reads nothing off no octets writes some for every value. -/
theorem Form.ReadsBack.encode_ne_nil {α : Type} {f : Form α} (hf : f.ReadsBack) {fault : Fault}
    (hnil : f.decode [] = .error fault) {a : α} (ha : f.Fits a) : f.encode a ≠ [] := by
  intro hencode
  have hread := hf a [] ha
  rw [hencode, List.append_nil, hnil] at hread
  cases hread

/-- **Encodings in a row can be told apart**, although nothing separates them or says how many
there are. -/
theorem Form.ReadsBack.flatMap_inj {α : Type} {f : Form α} (hf : f.ReadsBack) {fault : Fault}
    (hnil : f.decode [] = .error fault) {as bs : List α} (has : ∀ a ∈ as, f.Fits a)
    (hbs : ∀ b ∈ bs, f.Fits b) (h : as.flatMap f.encode = bs.flatMap f.encode) : as = bs := by
  induction as generalizing bs with
  | nil =>
    cases bs with
    | nil => rfl
    | cons b bs =>
      -- Nothing is written on the left, but something for `b` on the right.
      have hb := hf.encode_ne_nil hnil (hbs b List.mem_cons_self)
      rw [List.flatMap_nil, List.flatMap_cons] at h
      exact absurd (List.append_eq_nil_iff.1 h.symm).1 hb
  | cons a as ih =>
    obtain ⟨ha, hasfits⟩ := List.forall_mem_cons.1 has
    cases bs with
    | nil =>
      have hne := hf.encode_ne_nil hnil ha
      rw [List.flatMap_nil, List.flatMap_cons] at h
      exact absurd (List.append_eq_nil_iff.1 h).1 hne
    | cons b bs =>
      obtain ⟨hb, hbsfits⟩ := List.forall_mem_cons.1 hbs
      rw [List.flatMap_cons, List.flatMap_cons] at h
      obtain ⟨rfl, htail⟩ := hf.append_inj ha hb h
      rw [ih hasfits hbsfits htail]

end Wire

/-! ### What is hashed -/

namespace TxSet

/-- The octets of which the contents hash is the digest: the previous hash and those of the
transactions in canonical order, one after the other. -/
def hashed (s : TxSet) : Bytes :=
  s.previous.toBytes ++ (canonicalOrder s.transactions).flatMap Frame.encoded

theorem Reachable.contentsHash_eq_sha256 {s : TxSet} (hs : s.Reachable) :
    s.contentsHash.1 = sha256 s.hashed := by
  rw [hs.fresh.contentsHash_eq]
  rfl

/-- The octets that are hashed determine what they are made of. -/
theorem hashed_inj {s t : TxSet} (hs : ∀ f ∈ s.transactions, Wire.envelope.Fits f.envelope)
    (ht : ∀ f ∈ t.transactions, Wire.envelope.Fits f.envelope) (h : s.hashed = t.hashed) :
    s.previous = t.previous ∧ (canonicalOrder s.transactions).map Frame.envelope =
      (canonicalOrder t.transactions).map Frame.envelope := by
  have hfits : ∀ fs : List Frame, (∀ f ∈ fs, Wire.envelope.Fits f.envelope) →
      ∀ e ∈ (canonicalOrder fs).map Frame.envelope, Wire.envelope.Fits e := by
    intro fs hfs e he
    obtain ⟨f, hf, rfl⟩ := List.mem_map.1 he
    exact hfs f ((canonicalOrder_perm fs).subset hf)
  rw [hashed, hashed, flatMap_encoded, flatMap_encoded] at h
  -- The previous hash has a fixed length, so the envelopes begin at one place in both.
  obtain ⟨hprevious, henvelopes⟩ := Wire.readsBack_hash.append_inj trivial trivial h
  refine ⟨hprevious, ?_⟩
  exact Wire.readsBack_envelope.flatMap_inj rfl (hfits _ hs) (hfits _ ht) henvelopes

end TxSet

namespace Envelope

/-- The octets of which the payload is the digest. -/
def hashed (e : Envelope) (network : Hash256) : Bytes :=
  network.toBytes ++ Wire.transaction.encode e.transaction

theorem hashed_inj {d e : Envelope} {network network' : Hash256}
    (hd : Wire.transaction.Fits d.transaction) (he : Wire.transaction.Fits e.transaction)
    (h : d.hashed network = e.hashed network') :
    network = network' ∧ d.transaction = e.transaction := by
  obtain ⟨hnetwork, hencoded⟩ := Wire.readsBack_hash.append_inj trivial trivial h
  rw [← List.append_nil (Wire.transaction.encode d.transaction),
    ← List.append_nil (Wire.transaction.encode e.transaction)] at hencoded
  exact ⟨hnetwork, (Wire.readsBack_transaction.append_inj hd he hencoded).1⟩

end Envelope

/-- **Hashes are unambiguous commitments.** Two sets with one contents hash, whatever happened to
them, are built on one ledger and have the same envelopes in canonical order, each as often, or the
octets that were hashed are a collision. Two payloads that are equal are of one network and one
transaction, or the octets that were hashed are a collision. The lengths within the envelopes have
to fit eight octets, as those of all values in memory do. -/
theorem commitments_are_unambiguous (s t : TxSet) (hs : s.Reachable) (ht : t.Reachable)
    (hsfits : ∀ f ∈ s.transactions, Wire.envelope.Fits f.envelope)
    (htfits : ∀ f ∈ t.transactions, Wire.envelope.Fits f.envelope)
    (d e : Envelope) (network network' : Hash256)
    (hd : Wire.transaction.Fits d.transaction) (he : Wire.transaction.Fits e.transaction) :
    (s.contentsHash.1 = sha256 s.hashed ∧ t.contentsHash.1 = sha256 t.hashed) ∧
    (s.contentsHash.1 = t.contentsHash.1 →
      (s.previous = t.previous ∧ (canonicalOrder s.transactions).map Frame.envelope =
        (canonicalOrder t.transactions).map Frame.envelope) ∨ Collision s.hashed t.hashed) ∧
    (d.payload network = sha256 (d.hashed network) ∧
      e.payload network' = sha256 (e.hashed network')) ∧
    (d.payload network = e.payload network' →
      (network = network' ∧ d.transaction = e.transaction) ∨
        Collision (d.hashed network) (e.hashed network')) := by
  refine ⟨⟨hs.contentsHash_eq_sha256, ht.contentsHash_eq_sha256⟩, fun h => ?_, ⟨rfl, rfl⟩,
    fun h => ?_⟩
  · rw [hs.contentsHash_eq_sha256, ht.contentsHash_eq_sha256] at h
    exact (eq_or_collision h).imp_left (TxSet.hashed_inj hsfits htfits)
  · exact (eq_or_collision h).imp_left (Envelope.hashed_inj hd he)

/-- The case of two sets that list two envelopes in different orders and for different networks:
they have one contents hash, so their envelopes in canonical order are the same. -/
theorem commitments_in_both_orders :
    let first := (Sample.signed 100 1).envelope
    let second := (Sample.signed 100 2).envelope
    let s := TxSet.ofEnvelopes .zero ⟨.zero, [first, second]⟩
    let t := TxSet.ofEnvelopes (sha256 []) ⟨.zero, [second, first]⟩
    s.contentsHash.1 = t.contentsHash.1 ∧ (canonicalOrder s.transactions).map Frame.envelope =
      (canonicalOrder t.transactions).map Frame.envelope := by
  intro first second s t
  have hfirst : Wire.envelope.Fits first := Sample.fits_signed 100 1
  have hsecond : Wire.envelope.Fits second := Sample.fits_signed 100 2
  have hsfits : ∀ f ∈ s.transactions, Wire.envelope.Fits f.envelope := by
    intro f hf
    rcases List.mem_cons.1 hf with rfl | hf
    · exact hfirst
    · rwa [List.mem_singleton.1 hf]
  have htfits : ∀ f ∈ t.transactions, Wire.envelope.Fits f.envelope := by
    intro f hf
    rcases List.mem_cons.1 hf with rfl | hf
    · exact hsecond
    · rwa [List.mem_singleton.1 hf]
  obtain ⟨⟨hs, ht⟩, hsets, -⟩ := commitments_are_unambiguous s t (.ofEnvelopes _ _)
    (.ofEnvelopes _ _) hsfits htfits first second .zero .zero hfirst.1 hsecond.1
  have hsame : s.hashed = t.hashed := by decide +kernel
  have hhash : s.contentsHash.1 = t.contentsHash.1 := by rw [hs, ht, hsame]
  exact ⟨hhash, ((hsets hhash).resolve_right fun hcollision => hcollision.ne hsame).2⟩

end NextLedger
