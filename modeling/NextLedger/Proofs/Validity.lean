import NextLedger.Proofs.Amounts
import NextLedger.Proofs.Walk.Findings

/-!
# Validity in exact numbers

The check of a transaction decides a plain statement in exact integers, as long as its least fee
fits: a transaction is valid after a given number if it is **sound** by itself, its account is
there, and its number is the next (`verdict_eq_valid_iff`).
-/

namespace NextLedger

/-! ### Soundness of a transaction -/

/-- Whether an operation of the given source is well formed. -/
def Operation.WellFormed (source : AccountId) : Operation → Prop
  | .createAccount destination startingBalance =>
    0 < startingBalance.toInt ∧ destination ≠ source
  | .payment _ amount => 0 < amount.toInt
  | .bumpSequence bumpTo => 0 ≤ bumpTo.toInt

theorem Operation.fault?_eq_none_iff {source : AccountId} {op : Operation} :
    op.fault? source = none ↔ op.WellFormed source := by
  cases op with
  | createAccount destination startingBalance =>
    have hle : startingBalance ≤ 0 ↔ ¬ 0 < startingBalance.toInt := by
      rw [Int64.le_iff_toInt_le, Int64.toInt_zero, Int.not_lt]
    by_cases hbalance : 0 < startingBalance.toInt <;> by_cases hself : destination = source <;>
      simp [fault?, WellFormed, hle, hbalance, hself]
  | payment destination amount => simp [fault?, WellFormed, Int64.le_iff_toInt_le]
  | bumpSequence bumpTo => simp [fault?, WellFormed, Int64.lt_iff_toInt_lt]

instance (source : AccountId) (op : Operation) : Decidable (op.WellFormed source) :=
  decidable_of_iff _ Operation.fault?_eq_none_iff

theorem Transaction.malformed?_eq_none_iff {t : Transaction} :
    t.malformed? = none ↔ ∀ op ∈ t.operations, op.WellFormed t.source := by
  simp only [malformed?, List.findSome?_eq_none_iff, Option.map_eq_none_iff,
    Operation.fault?_eq_none_iff]
  constructor
  · intro h op hop
    obtain ⟨i, hi⟩ := List.mem_iff_getElem?.1 hop
    exact h (op, i) (List.mk_mem_zipIdx_iff_getElem?.2 hi)
  · intro h p hp
    exact h p.1 (List.fst_mem_of_mem_zipIdx hp)

namespace Frame

/-- Whether a transaction is **sound** by itself: all that makes it valid apart from its account and
its sequence number. An exempt one may offer any fee. -/
structure Sound (f : Frame) (header : LedgerHeader) (exempt : Bool) : Prop where
  operations_ne_nil : f.transaction.operations ≠ []
  wellFormed : ∀ op ∈ f.transaction.operations, op.WellFormed f.source
  fee : exempt = true ∨ header.minFee f.operationCount ≤ f.transaction.fee.toNat
  signed : ∃ s ∈ f.envelope.signatures, s.hint = f.source.key.hint ∧
    f.source.key.verifies f.payload.toBytes s.signature = true

variable {f : Frame} {header : LedgerHeader} {exempt : Bool}

theorem isSigned_iff : f.isSigned = true ↔ ∃ s ∈ f.envelope.signatures,
    s.hint = f.source.key.hint ∧ f.source.key.verifies f.payload.toBytes s.signature = true := by
  simp [isSigned]

theorem checkAlone_ne_overflow (exempt : Bool)
    (hfit : (header.minFee f.operationCount : Int) ≤ Amount.greatest) :
    f.checkAlone header exempt ≠ .overflow := by
  obtain ⟨minFee, hminFee, -⟩ := LedgerHeader.exists_minFee? hfit
  simp only [checkAlone, minFee?, hminFee]
  split
  · simp
  · split
    · simp
    · split <;> simp

/-- The checks of a transaction alone pass exactly if it has operations, all well formed, and pays a
least fee that is an amount. -/
theorem checkAlone_eq_valid_iff_exists : f.checkAlone header exempt = .valid ↔
    f.transaction.operations ≠ [] ∧ (∀ op ∈ f.transaction.operations, op.WellFormed f.source) ∧
      ∃ minFee, f.minFee? header = some minFee ∧ (exempt = true ∨ minFee ≤ f.fee) := by
  have hwell : f.transaction.malformed? = none ↔
      ∀ op ∈ f.transaction.operations, op.WellFormed f.source :=
    Transaction.malformed?_eq_none_iff
  rw [← hwell, ne_eq, ← List.isEmpty_iff, checkAlone]
  cases f.transaction.operations.isEmpty with
  | true => simp
  | false =>
    cases f.transaction.malformed? with
    | some p => simp
    | none =>
      cases f.minFee? header with
      | none => simp
      | some minFee => cases exempt <;> simp [Int64.not_lt]

/-- The same with a least fee that fits. -/
theorem checkAlone_eq_valid_iff (exempt : Bool)
    (hfit : (header.minFee f.operationCount : Int) ≤ Amount.greatest) :
    f.checkAlone header exempt = .valid ↔
      f.transaction.operations ≠ [] ∧ (∀ op ∈ f.transaction.operations, op.WellFormed f.source) ∧
        (exempt = true ∨ header.minFee f.operationCount ≤ f.transaction.fee.toNat) := by
  obtain ⟨minFee, hminFee, hexact⟩ := LedgerHeader.exists_minFee? hfit
  have hfee : minFee ≤ f.fee ↔ header.minFee f.operationCount ≤ f.transaction.fee.toNat := by
    rw [← Int64.not_lt, f.fee_lt_iff hexact, Decidable.not_not]
  simp [checkAlone_eq_valid_iff_exists, minFee?, hminFee, hfee]

end Frame

/-- The number that an account's next transaction follows: that of its last valid one in the set,
or the one in its entry where that is zero. -/
def AccountEntry.current (entry : AccountEntry) (last : SequenceNumber) : Int :=
  (if last = 0 then entry.sequence else last).toInt

namespace Frame

variable {f : Frame} {view : LedgerView Unit} {exempt : Bool} {last : SequenceNumber}

/-- The checks with the account pass exactly if the number is the next and the transaction is
signed. -/
theorem checkAccount_eq_valid_iff {entry : AccountEntry} :
    f.checkAccount entry last = .valid ↔
      f.sequence.toInt = entry.current last + 1 ∧ f.isSigned = true := by
  simp only [checkAccount, AccountEntry.current]
  generalize (if last = 0 then entry.sequence else last) = current
  have hnext := Amount.ne_next_iff current f.sequence
  by_cases h : f.sequence.toInt = current.toInt + 1
  · simp [hnext, h]
  · simp [hnext, h]

theorem checkAccount_ne_overflow {entry : AccountEntry} :
    f.checkAccount entry last ≠ .overflow := by
  simp only [checkAccount]
  generalize (if last = 0 then entry.sequence else last) = current
  split
  · simp
  · split <;> simp

/-- Where the least fee fits, a check gives an answer. -/
theorem verdict_ne_overflow
    (hfit : (view.header.minFee f.operationCount : Int) ≤ Amount.greatest) :
    f.verdict view exempt last ≠ .overflow := by
  simp only [verdict, check]
  split
  · split
    · simp
    · simp
    · exact checkAccount_ne_overflow
  · exact checkAlone_ne_overflow exempt hfit

/-- A transaction is valid exactly if its operations, its fee, its account, its number and its
signatures are as they must be. -/
theorem check_eq_valid_iff {σ : Type} {view : LedgerView σ} {s : σ} :
    (f.check view last exempt s).1 = .valid ↔
      f.checkAlone view.header exempt = .valid ∧ ∃ entry, (view.load f.source s).1 = .ok entry ∧
        f.sequence.toInt = entry.current last + 1 ∧ f.isSigned = true := by
  rw [check]
  cases f.checkAlone view.header exempt with
  | overflow => simp
  | invalid reason => simp
  | valid =>
    obtain ⟨answer, s'⟩ := view.load f.source s
    cases answer with
    | error fault => cases fault <;> simp
    | ok entry => simp [checkAccount_eq_valid_iff]

/-- A transaction that is valid has the number that is next for its account. -/
theorem sequence_of_verdict_eq_valid {entry : AccountEntry}
    (hvalid : f.verdict view exempt last = .valid) (hload : (view.load f.source ()).1 = .ok entry) :
    f.sequence.toInt = entry.current last + 1 := by
  obtain ⟨-, entry', hload', hnext, -⟩ := check_eq_valid_iff.1 hvalid
  obtain rfl : entry' = entry := by simpa [hload'] using hload
  exact hnext

/-- **Validity in place.** A transaction is valid after the one numbered `last` exactly if it is
sound, its account is there, and its number is the next. -/
theorem verdict_eq_valid_iff
    (hfit : (view.header.minFee f.operationCount : Int) ≤ Amount.greatest) :
    f.verdict view exempt last = .valid ↔
      f.Sound view.header exempt ∧ ∃ entry, (view.load f.source ()).1 = .ok entry ∧
        f.sequence.toInt = entry.current last + 1 := by
  rw [verdict, check_eq_valid_iff, checkAlone_eq_valid_iff exempt hfit, isSigned_iff]
  constructor
  · rintro ⟨⟨hops, hwell, hfee⟩, entry, hload, hnext, hsigned⟩
    exact ⟨⟨hops, hwell, hfee, hsigned⟩, entry, hload, hnext⟩
  · rintro ⟨⟨hops, hwell, hfee, hsigned⟩, entry, hload, hnext⟩
    exact ⟨⟨hops, hwell, hfee⟩, entry, hload, hnext, hsigned⟩

/-- Where its account is known, a transaction is valid exactly if it is sound and its number is the
next. -/
theorem verdict_eq_valid_iff_of_load (exempt : Bool) (last : SequenceNumber) {a : AccountId}
    {entry : AccountEntry} (hload : (view.load a ()).1 = .ok entry) (hsource : f.source = a)
    (hfit : (view.header.minFee f.operationCount : Int) ≤ Amount.greatest) :
    f.verdict view exempt last = .valid ↔
      f.Sound view.header exempt ∧ f.sequence.toInt = entry.current last + 1 := by
  rw [verdict_eq_valid_iff hfit, hsource, hload]
  simp

end Frame

/-- A positive number stands for itself: it is not zero, which stands for the number in the
entry. -/
theorem AccountEntry.current_of_pos {entry : AccountEntry} {n : SequenceNumber}
    (hn : 0 < n.toInt) : entry.current n = n.toInt := by
  have hne : n ≠ 0 := by
    rintro rfl
    simp at hn
  simp [current, hne]

theorem rejections_ne_overflow {view : LedgerView Unit} {exempt : Bool} {last : SequenceNumber}
    {fs : List Frame}
    (hfit : ∀ f ∈ fs, (view.header.minFee f.operationCount : Int) ≤ Amount.greatest) :
    ∀ x ∈ rejections view exempt last fs, x ≠ .overflow := by
  induction fs generalizing last with
  | nil => simp [rejections]
  | cons f fs ih =>
    obtain ⟨hf, hfs⟩ := List.forall_mem_cons.1 hfit
    rw [rejections]
    cases hverdict : f.verdict view exempt last with
    | valid => exact ih hfs
    | invalid reason => exact List.forall_mem_cons.2 ⟨by simp [Frame.rejection], ih hfs⟩
    | overflow => exact absurd hverdict (Frame.verdict_ne_overflow hf)

end NextLedger
