import NextLedger.Proofs.Affordability
import NextLedger.Transaction.Draft

/-!
# Signatures

The check of a transaction looks at its signatures last, and asks only whether one of them is good.
So its answer splits into the answer that all other checks give together, which does not depend on
the signatures, and the question whether the transaction is signed (`exists_check_eq`). More
signatures can only turn the answer to that question from no to yes, and the payload by which they
are judged does not cover them.

A draft that is signed with the key of its source has a good signature, whoever else signs it and in
whatever order, if Ed25519 verifies what it signs.
-/

namespace NextLedger

/-- The verdict on a transaction for which all checks but that of the signatures give `v`. -/
def Verdict.onceSigned (v : Verdict) (signed : Bool) : Verdict :=
  match v with
  | .valid => if signed then .valid else .invalid .badAuthorization
  | v => v

namespace Verdict

@[simp] theorem onceSigned_true (v : Verdict) : v.onceSigned true = v := by
  cases v <;> rfl

theorem onceSigned_of_ne_valid {v : Verdict} (h : v ≠ .valid) (signed : Bool) :
    v.onceSigned signed = v := by
  cases v with
  | valid => exact absurd rfl h
  | invalid reason => rfl
  | overflow => rfl

/-- A verdict with more signatures. -/
theorem onceSigned_of_imp {v : Verdict} (hv : v ≠ .invalid .badAuthorization)
    {before after : Bool} (h : before = true → after = true) :
    (v.onceSigned before = .valid → v.onceSigned after = .valid) ∧
    (v.onceSigned before ≠ .invalid .badAuthorization → v.onceSigned after = v.onceSigned before) ∧
    (v.onceSigned before = .invalid .badAuthorization →
      v.onceSigned after = .invalid .badAuthorization ∨ v.onceSigned after = .valid) := by
  by_cases hvalid : v = .valid
  · subst hvalid
    cases before with
    | true => simp [h rfl]
    | false => cases after <;> simp [onceSigned]
  · simp [onceSigned_of_ne_valid hvalid, hv]

end Verdict

namespace Frame

variable {σ : Type}

/-! ### The checks without signatures -/

theorem checkAlone_ne_badAuthorization {f : Frame} {header : LedgerHeader} {exempt : Bool} :
    f.checkAlone header exempt ≠ .invalid .badAuthorization := by
  simp only [checkAlone]
  split
  · simp
  · split
    · simp
    · split
      · simp
      · split <;> simp

/-- The check with the account, if there is one, in the same two parts. -/
theorem exists_checkAccount_eq (t : Transaction) (network : Hash256) (entry : AccountEntry)
    (last : SequenceNumber) :
    ∃ v : Verdict, v ≠ .invalid .badAuthorization ∧ ∀ signatures,
      let f := ofEnvelope network ⟨t, signatures⟩
      f.checkAccount entry last = v.onceSigned f.isSigned := by
  simp only [checkAccount]
  generalize (if last = 0 then entry.sequence else last) = current
  by_cases hnext : current.toInt = Amount.greatest ∨ t.sequence ≠ Amount.addClamped current 1
  · refine ⟨.invalid (.badSequence (Amount.addClamped current 1) t.sequence), by simp, ?_⟩
    intro signatures
    rw [Verdict.onceSigned_of_ne_valid (by simp)]
    exact if_pos hnext
  · exact ⟨.valid, by simp, fun signatures => if_neg hnext⟩

/-- **Signatures are looked at last.** For one transaction, all checks but that of the signatures
give one answer, never the one about signatures, and leave one state; the signatures decide only if
that answer is that the transaction is valid. -/
theorem exists_check_eq (t : Transaction) (network : Hash256) (view : LedgerView σ)
    (last : SequenceNumber) (exempt : Bool) (s : σ) :
    ∃ (v : Verdict) (s' : σ), v ≠ .invalid .badAuthorization ∧ ∀ signatures,
      let f := ofEnvelope network ⟨t, signatures⟩
      f.check view last exempt s = (v.onceSigned f.isSigned, s') := by
  -- What a transaction shows alone is the same under all signatures.
  let unsigned := ofEnvelope network ⟨t, []⟩
  have halone : ∀ signatures, (ofEnvelope network ⟨t, signatures⟩).checkAlone view.header exempt =
      unsigned.checkAlone view.header exempt := fun _ => rfl
  have hload : ∀ signatures, view.load (ofEnvelope network ⟨t, signatures⟩).source s =
      view.load t.source s := fun _ => rfl
  simp only [check, halone, hload]
  cases hchecked : unsigned.checkAlone view.header exempt with
  | overflow => exact ⟨.overflow, s, by simp, fun _ => rfl⟩
  | invalid reason =>
    exact ⟨.invalid reason, s, hchecked ▸ checkAlone_ne_badAuthorization, fun _ => rfl⟩
  | valid =>
    obtain ⟨answer, s'⟩ := view.load t.source s
    cases answer with
    | error fault =>
      cases fault with
      | notFound a => exact ⟨.invalid (.noAccount t.source), s', by simp, fun _ => rfl⟩
      | backend detail => exact ⟨.invalid (.store (.backend detail)), s', by simp, fun _ => rfl⟩
      | serialization detail =>
        exact ⟨.invalid (.store (.serialization detail)), s', by simp, fun _ => rfl⟩
    | ok entry =>
      obtain ⟨v, hv, hall⟩ := exists_checkAccount_eq t network entry last
      exact ⟨v, s', hv, fun signatures => by rw [← hall signatures]⟩

/-- What is signed does not fail for its signatures. -/
theorem check_ne_badAuthorization {f : Frame} (h : f.isSigned = true) (view : LedgerView σ)
    (last : SequenceNumber) (exempt : Bool) (s : σ) :
    (f.check view last exempt s).1 ≠ .invalid .badAuthorization := by
  obtain ⟨v, s', hne, hcheck⟩ := exists_check_eq f.transaction f.network view last exempt s
  have hf : f.check view last exempt s = (v.onceSigned f.isSigned, s') := by
    have hall := hcheck f.envelope.signatures
    rwa [show ofEnvelope f.network ⟨f.transaction, f.envelope.signatures⟩ = f from
      f.ofEnvelope_envelope] at hall
  rw [hf, h, Verdict.onceSigned_true]
  exact hne

/-- What is signed stays signed with more signatures. -/
theorem isSigned_of_subset {t : Transaction} {network : Hash256} {few many : List HintedSignature}
    (hsub : few ⊆ many) (h : (ofEnvelope network ⟨t, few⟩).isSigned = true) :
    (ofEnvelope network ⟨t, many⟩).isSigned = true := by
  obtain ⟨signature, hmem, hgood⟩ := isSigned_iff.1 h
  exact isSigned_iff.2 ⟨signature, hsub hmem, hgood⟩

end Frame

/-! ### Signers -/

namespace Draft

/-- The signature of a key pair for a draft. -/
def signature (d : Draft) (network : Hash256) (pair : KeyPair) : HintedSignature :=
  ⟨pair.key.hint, pair.sign (Envelope.payload ⟨d.build, []⟩ network).toBytes⟩

/-- A signed draft has the signatures of its signers, in order. All of them are made for one
payload, as it does not cover the signatures before them. -/
theorem sign_eq (d : Draft) (network : Hash256) (signers : List KeyPair) :
    d.sign network signers = ⟨d.build, signers.map (d.signature network)⟩ := by
  have hfold : ∀ made : List HintedSignature,
      signers.foldl (fun e signer => e.sign network signer) ⟨d.build, made⟩ =
        (⟨d.build, made ++ signers.map (d.signature network)⟩ : Envelope) := by
    induction signers with
    | nil => simp
    | cons signer signers ih =>
      intro made
      have hsigned : Envelope.sign ⟨d.build, made⟩ network signer =
          ⟨d.build, made ++ [d.signature network signer]⟩ := rfl
      rw [List.foldl_cons, hsigned, ih, List.map_cons, ← List.append_cons]
  exact hfold []

variable (d : Draft) (network : Hash256) (signers : List KeyPair)

@[simp] theorem transaction_frame : (d.frame network signers).transaction = d.build := by
  rw [frame, sign_eq]
  rfl

@[simp] theorem source_frame : (d.frame network signers).source = d.source := by
  rw [Frame.source, transaction_frame, build]

@[simp] theorem payload_frame :
    (d.frame network signers).payload = Envelope.payload ⟨d.build, []⟩ network := by
  rw [frame, sign_eq]
  rfl

variable {d network signers}

/-- A draft is signed if its source's key is among the signers' and verifies what it signs. -/
theorem isSigned_frame {pair : KeyPair} (hmem : pair ∈ signers) (hkey : pair.key = d.source.key)
    (hverifies : pair.key.verifies (d.frame network signers).payload.toBytes
      (pair.sign (d.frame network signers).payload.toBytes) = true) :
    (d.frame network signers).isSigned = true := by
  refine Frame.isSigned_iff.2 ⟨d.signature network pair, ?_, ?_, ?_⟩
  · rw [frame, sign_eq]
    exact List.mem_map_of_mem hmem
  · rw [source_frame, ← hkey, signature]
  · rw [payload_frame] at hverifies
    rw [source_frame, ← hkey, signature, payload_frame]
    exact hverifies

end Draft

/-- **Signatures only help.** Add signatures to a transaction, anywhere among those that it has. The
payload stays, and over any ledger what is valid stays valid, every verdict but that on the
signatures stays, and that one stays or the transaction becomes valid. Moreover, a draft that is
signed by the key pair of its source, among others, never fails for its signatures, provided that
the signature verifies; so it is valid exactly if its operations, its fee, its account and its
number are as they must be. -/
theorem signatures_only_help :
    (∀ (network : Hash256) (t : Transaction) (few many : List HintedSignature), few ⊆ many →
      let f := Frame.ofEnvelope network ⟨t, few⟩
      let g := Frame.ofEnvelope network ⟨t, many⟩
      g.payload = f.payload ∧
      ∀ (σ : Type) (view : LedgerView σ) (last : SequenceNumber) (exempt : Bool) (s : σ),
        let before := f.check view last exempt s
        let after := g.check view last exempt s
        after.2 = before.2 ∧
        (before.1 = .valid → after.1 = .valid) ∧
        (before.1 ≠ .invalid .badAuthorization → after.1 = before.1) ∧
        (before.1 = .invalid .badAuthorization →
          after.1 = .invalid .badAuthorization ∨ after.1 = .valid)) ∧
    ∀ (d : Draft) (network : Hash256) (signers : List KeyPair), ∀ pair ∈ signers,
      pair.key = d.source.key →
      let f := d.frame network signers
      pair.key.verifies f.payload.toBytes (pair.sign f.payload.toBytes) = true →
      ∀ (σ : Type) (view : LedgerView σ) (last : SequenceNumber) (exempt : Bool) (s : σ),
        (f.check view last exempt s).1 ≠ .invalid .badAuthorization ∧
        ((f.check view last exempt s).1 = .valid ↔
          d.operations ≠ [] ∧ (∀ op ∈ d.operations, op.WellFormed d.source) ∧
          (∃ minFee, f.minFee? view.header = some minFee ∧ (exempt = true ∨ minFee ≤ f.fee)) ∧
          ∃ entry, (view.load d.source s).1 = .ok entry ∧
            d.sequence.toInt = entry.current last + 1) := by
  constructor
  · intro network t few many hsub f g
    refine ⟨rfl, fun σ view last exempt s => ?_⟩
    obtain ⟨v, s', hne, hcheck⟩ := Frame.exists_check_eq t network view last exempt s
    have hf : f.check view last exempt s = (v.onceSigned f.isSigned, s') := hcheck few
    have hg : g.check view last exempt s = (v.onceSigned g.isSigned, s') := hcheck many
    simp only [hf, hg, true_and]
    exact Verdict.onceSigned_of_imp hne (Frame.isSigned_of_subset hsub)
  · intro d network signers pair hmem hkey f hverifies σ view last exempt s
    have hsigned : f.isSigned = true := Draft.isSigned_frame hmem hkey hverifies
    refine ⟨Frame.check_ne_badAuthorization hsigned view last exempt s, ?_⟩
    have htransaction : f.transaction = d.build := d.transaction_frame network signers
    have hsource : f.source = d.source := d.source_frame network signers
    rw [Frame.check_eq_valid_iff, Frame.checkAlone_eq_valid_iff_exists, hsigned, Frame.sequence,
      hsource, htransaction]
    simp only [Draft.build, and_true, and_assoc]

/-- The case of a payment that a stranger signs before its source, with one more signature put in
front. -/
theorem signatures_help_payment :
    let pair := KeyPair.ofSeed ⟨.fill 32 1⟩
    let stranger := KeyPair.ofSeed ⟨.fill 32 2⟩
    let d := ((Draft.start ⟨pair.key⟩ 1).withOperation (.payment ⟨stranger.key⟩ 5)).withFee 100
    let f := d.frame .zero [stranger, pair]
    let view := LedgerView.fixed (Sample.closed 3) fun a => .ok ⟨a, 1000, 0, 0⟩
    let more := fun signature =>
      Frame.ofEnvelope .zero ⟨f.transaction, signature :: f.envelope.signatures⟩
    (f.check view 0 false ()).1 = .valid ∧
      ∀ signature, ((more signature).check view 0 false ()).1 = .valid := by
  intro pair stranger d f view more
  have hverifies : pair.key.verifies f.payload.toBytes (pair.sign f.payload.toBytes) = true := by
    decide +kernel
  have hdraft := signatures_only_help.2 d .zero [stranger, pair] pair (by simp) rfl hverifies Unit
    view 0 false ()
  have hvalid : (f.check view 0 false ()).1 = .valid := by
    refine hdraft.2.2 ⟨List.cons_ne_nil _ _, ?_, ⟨100, by decide +kernel, .inr ?_⟩,
      ⟨_, 1000, 0, 0⟩, rfl, ?_⟩
    · intro op hop
      rw [List.mem_singleton.1 hop]
      exact (by decide : (0 : Int) < (5 : Int64).toInt)
    · decide
    · decide
  refine ⟨hvalid, fun signature => ?_⟩
  exact ((signatures_only_help.1 .zero f.transaction f.envelope.signatures
    (signature :: f.envelope.signatures) (List.subset_cons_self _ _)).2 Unit view 0 false ()).2.1
      hvalid

end NextLedger
