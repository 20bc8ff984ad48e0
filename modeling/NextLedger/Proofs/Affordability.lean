import NextLedger.Proofs.Validity

/-!
# Affordability in exact numbers

What an account has to pay is added up with clamped sums and compared with a clamped difference. As
long as the amounts about a set **fit** (`AmountsFit`), which they do for every set of a practical
size (`AmountsFit.of_size`), nothing overflows (`AmountsFit.noOverflow`), and nothing is found when
an account settles exactly if its balance less the exact sum of its fees is no less than what it has
to keep (`settlement_eq_nil_iff_affords`).
-/

namespace NextLedger

/-! ### Paying -/

/-- The fees of some transactions together. -/
def totalFees (fs : List Frame) : Nat := (fs.map fun f => f.transaction.fee.toNat).sum

@[simp] theorem totalFees_nil : totalFees [] = 0 := rfl

@[simp] theorem totalFees_cons (f : Frame) (fs : List Frame) :
    totalFees (f :: fs) = f.transaction.fee.toNat + totalFees fs := by
  simp [totalFees]

theorem totalFees_perm {fs gs : List Frame} (h : fs.Perm gs) : totalFees fs = totalFees gs :=
  (h.map _).sum_eq

theorem totalFees_le_of_sublist {fs gs : List Frame} (h : fs.Sublist gs) :
    totalFees fs ≤ totalFees gs :=
  (h.map _).sum_le_sum fun _ _ => Nat.zero_le _

/-- Fees fit together for as many transactions as can occur in practice. -/
theorem totalFees_le_greatest {fs : List Frame} (h : fs.length ≤ 2 ^ 31) :
    (totalFees fs : Int) ≤ Amount.greatest := by
  have hsum : totalFees fs ≤ fs.length * (2 ^ 32 - 1) := by
    refine (List.sum_le_card_nsmul _ (2 ^ 32 - 1) fun n hn => ?_).trans (by simp)
    obtain ⟨f, -, rfl⟩ := List.mem_map.1 hn
    exact Nat.le_sub_one_of_lt f.transaction.fee.toNat_lt
  rw [Amount.greatest]
  omega

/-- Whether an account can pay for some of its transactions and keep its least balance. An exempt
one pays nothing. -/
def AccountEntry.Affords (entry : AccountEntry) (header : LedgerHeader) (exempt : Bool)
    (fs : List Frame) : Prop :=
  (header.minimumBalance entry.subEntries : Int) ≤
    entry.balance.toInt - (if exempt then 0 else totalFees fs : Nat)

instance (entry : AccountEntry) (header : LedgerHeader) (exempt : Bool) (fs : List Frame) :
    Decidable (entry.Affords header exempt fs) :=
  inferInstanceAs (Decidable (_ ≤ _))

/-- Fees whose sum fits are added exactly. -/
theorem Tally.toInt_totalFee_addAll {t : Tally} (exempt : Bool) {fs : List Frame}
    (hlow : 0 ≤ t.totalFee.toInt) (hfit : t.totalFee.toInt + totalFees fs ≤ Amount.greatest) :
    (t.addAll exempt fs).totalFee.toInt =
      t.totalFee.toInt + (if exempt then 0 else totalFees fs : Nat) := by
  induction fs generalizing t with
  | nil => simp [addAll]
  | cons f fs ih =>
    rw [totalFees_cons, Nat.cast_add] at hfit
    have hadd : (t.add exempt f).totalFee.toInt =
        t.totalFee.toInt + (if exempt then 0 else f.transaction.fee.toNat : Nat) := by
      cases exempt with
      | true => simp [add]
      | false =>
        have hleast : Amount.least ≤ 0 := by decide
        simp only [add, Bool.false_eq_true, if_false]
        rw [Amount.toInt_addClamped, Frame.toInt_fee] <;> rw [Frame.toInt_fee] <;> omega
    have hcons : t.addAll exempt (f :: fs) = (t.add exempt f).addAll exempt fs := rfl
    rw [hcons, ih, hadd, totalFees_cons]
    · cases exempt
      · simp only [Bool.false_eq_true, if_false]
        omega
      · simp
    · rw [hadd]
      omega
    · rw [hadd]
      cases exempt
      · simp only [Bool.false_eq_true, if_false]
        omega
      · simp only [if_true]
        omega

/-- The fees of an account's valid transactions are added exactly if they fit together. -/
theorem Tally.toInt_totalFee_start (exempt : Bool) {fs : List Frame}
    (hfees : (totalFees fs : Int) ≤ Amount.greatest) :
    (Tally.start.addAll exempt fs).totalFee.toInt = (if exempt then 0 else totalFees fs : Nat) := by
  rw [toInt_totalFee_addAll exempt] <;> simp [start, hfees]

/-- Clamped differences decide whether an account can pay, as long as what they are taken of
fits. -/
theorem AccountEntry.le_subClamped_iff_affords (entry : AccountEntry) (exempt : Bool)
    {header : LedgerHeader} {minimum : Amount} {fs : List Frame}
    (hminimum : minimum.toInt = header.minimumBalance entry.subEntries)
    (hfees : (totalFees fs : Int) ≤ Amount.greatest) :
    minimum ≤ Amount.subClamped entry.balance (Tally.start.addAll exempt fs).totalFee ↔
      entry.Affords header exempt fs := by
  have hlow : 0 ≤ minimum.toInt := hminimum ▸ Int.natCast_nonneg _
  rw [Amount.le_subClamped_iff hlow, Tally.toInt_totalFee_start exempt hfees, hminimum, Affords]

theorem settlement_ne_overflow {view : LedgerView Unit} {a : AccountId} {group : List Frame}
    {t : Tally} (hfit : ∀ entry, (view.load a ()).1 = .ok entry →
      (view.header.minimumBalance entry.subEntries : Int) ≤ Amount.greatest) :
    ∀ x ∈ settlement view a group t, x ≠ .overflow := by
  simp only [settlement]
  cases t.lastValid with
  | none => simp
  | some last =>
    cases hload : (view.load a ()).1 with
    | error fault => simp
    | ok entry =>
      obtain ⟨minimum, hminimum, -⟩ := LedgerHeader.exists_minimumBalance? (hfit entry hload)
      simp only [hminimum]
      split <;> simp

/-- **Paying.** Nothing is found when an account settles exactly if it has nothing accepted or can
pay for what it has. -/
theorem settlement_eq_nil_iff_affords {view : LedgerView Unit} {a : AccountId}
    (group : List Frame) {fs : List Frame} (exempt : Bool) {entry : AccountEntry}
    (hload : (view.load a ()).1 = .ok entry)
    (hbalance : (view.header.minimumBalance entry.subEntries : Int) ≤ Amount.greatest)
    (hfees : (totalFees fs : Int) ≤ Amount.greatest) :
    settlement view a group (Tally.start.addAll exempt fs) = [] ↔
      fs = [] ∨ entry.Affords view.header exempt fs := by
  obtain ⟨minimum, hminimum, hexact⟩ := LedgerHeader.exists_minimumBalance? hbalance
  have hpays := entry.le_subClamped_iff_affords exempt hexact hfees
  rcases List.eq_nil_or_concat' fs with rfl | ⟨init, last, rfl⟩
  · simp [settlement, Tally.addAll, Tally.start]
  · simp [settlement, Tally.lastValid_addAll, hload, hminimum, hpays]

/-! ### Amounts that fit -/

namespace TxSet

/-- Whether the amounts computed about a set over a ledger **fit** their range: the least fee of
each transaction, the fees of each account together, and the least balance of each account. -/
structure AmountsFit (s : TxSet) (view : LedgerView Unit) : Prop where
  minFee : ∀ f ∈ s.transactions,
    (view.header.minFee f.operationCount : Int) ≤ Amount.greatest
  fees : ∀ a, (totalFees (s.transactions.filter fun f => f.source == a) : Int) ≤ Amount.greatest
  minimumBalance : ∀ f ∈ s.transactions, ∀ entry, (view.load f.source ()).1 = .ok entry →
    (view.header.minimumBalance entry.subEntries : Int) ≤ Amount.greatest

variable {s : TxSet} {view : LedgerView Unit}

/-- Of an account, the fees of any part of its transactions fit as well. -/
theorem AmountsFit.totalFees_le (h : s.AmountsFit view) {a : AccountId} {fs : List Frame}
    (hfs : fs.Sublist (groupOf (canonicalOrder s.transactions) a)) :
    (totalFees fs : Int) ≤ Amount.greatest := by
  have hperm : (groupOf (canonicalOrder s.transactions) a).Perm
      (s.transactions.filter fun f => f.source == a) :=
    (groupOf_perm _ a).trans ((canonicalOrder_perm _).filter _)
  have hle := totalFees_le_of_sublist hfs
  rw [totalFees_perm hperm] at hle
  exact le_trans (Int.ofNat_le.2 hle) (h.fees a)

/-- The amounts about a part of a set fit as well. -/
theorem AmountsFit.sublist {t : TxSet} (h : s.AmountsFit view)
    (hsub : t.transactions.Sublist s.transactions) : t.AmountsFit view where
  minFee f hf := h.minFee f (hsub.subset hf)
  fees a := le_trans (Int.ofNat_le.2 (totalFees_le_of_sublist (hsub.filter _))) (h.fees a)
  minimumBalance f hf := h.minimumBalance f (hsub.subset hf)

/-- Amounts that fit do not overflow. -/
theorem AmountsFit.noOverflow (h : s.AmountsFit view) (policy : Policy) :
    s.NoOverflow view policy := by
  rw [noOverflow_iff]
  intro x hx
  obtain ⟨a, ha, hx⟩ := List.mem_flatMap.1 hx
  rcases List.mem_append.1 hx with hx | hx
  · refine rejections_ne_overflow (fun f hf => h.minFee f ?_) x hx
    exact (canonicalOrder_perm _).subset (mem_groupOf.1 hf).1
  · obtain ⟨f, hf, rfl⟩ := mem_sources.1 ha
    refine settlement_ne_overflow (fun entry hentry => ?_) x hx
    exact h.minimumBalance f ((canonicalOrder_perm _).subset hf) entry hentry

/-- Amounts fit for all sets that can occur in practice: fees and reserves are numbers of 32 bits,
and it takes billions of transactions or operations to exceed 63 bits. -/
theorem AmountsFit.of_size (hsize : s.size < 2 ^ 31)
    (hoperations : ∀ f ∈ s.transactions, f.operationCount < 2 ^ 31)
    (hreserve : view.header.baseReserve.toNat < 2 ^ 31) : s.AmountsFit view where
  minFee f hf := view.header.minFee_le_greatest (hoperations f hf).le
  fees a := totalFees_le_greatest (List.filter_sublist.length_le.trans hsize.le)
  minimumBalance f hf entry hload := by
    have hsub : 2 + entry.subEntries.toNat ≤ 2 ^ 32 + 1 := by
      have h := entry.subEntries.toNat_lt
      omega
    have hmul := Nat.mul_le_mul hsub (Nat.le_sub_one_of_lt hreserve)
    rw [LedgerHeader.minimumBalance, Amount.greatest]
    omega

end TxSet

/-! ### A small ledger -/

theorem LedgerState.mem_values_of_load {ledger : LedgerState} {a : AccountId}
    {entry : AccountEntry} (h : ledger.load a = .ok entry) : entry ∈ ledger.accounts.values := by
  rw [load] at h
  split at h
  · rename_i entry' hget
    obtain rfl : entry' = entry := by simpa using h
    obtain ⟨p, hfind, rfl⟩ := Option.map_eq_some_iff.1 hget
    exact List.mem_map_of_mem (List.mem_of_find?_eq_some hfind)
  · simp at h

namespace Sample

/-- The key whose point is the neutral one. Under it one signature is good for every message. -/
def key : PublicKey := ⟨⟨1 :: List.replicate 31 0, by decide⟩⟩

/-- An account with some balance and no transaction yet. -/
def entry : AccountEntry := ⟨⟨key⟩, 1000, 0, 0⟩

/-- A ledger with one account, whose sets hold three transactions. -/
def ledger : LedgerState := .ofEntries ⟨.zero, ⟨1, .zero, 100, 10, 3, 0⟩⟩ [entry]

/-- The last closed ledger of one whose sets hold so many transactions. -/
def closed (capacity : UInt32) : ClosedLedger := ⟨.zero, ⟨1, .zero, 100, 10, capacity, 0⟩⟩

/-- A signed transaction of the account with the given fee and number. -/
def signed (fee : UInt32) (number : SequenceNumber) : Frame :=
  .ofEnvelope .zero ⟨⟨entry.id, fee, number, none, [.bumpSequence 5]⟩,
    [⟨key.hint, ⟨⟨1 :: List.replicate 63 0, by decide⟩⟩⟩]⟩

theorem fits_signed (fee : UInt32) (number : SequenceNumber) :
    Wire.envelope.Fits (signed fee number).envelope := by
  refine ⟨⟨trivial, trivial, trivial, ?_, ?_⟩, ?_⟩
  · rintro text ⟨⟩
  · exact ⟨(by decide : 1 < UInt64.size), fun _ _ => trivial⟩
  · exact ⟨(by decide : 1 < UInt64.size), fun _ _ => ⟨trivial, trivial⟩⟩

/-- The account's first two transactions, in canonical order. -/
def agreed : TxSet := .ofFrames .zero [signed 100 2, signed 100 1]

/-- A set in canonical order with the first two transactions, the first one twice, and with a rival
of the first one that comes before it but offers too little. -/
def contested : TxSet :=
  .ofFrames .zero [signed 90 1, signed 100 2, signed 100 1, signed 100 1]

theorem mem_contested {f : Frame} (hf : f ∈ contested.transactions) :
    f = signed 90 1 ∨ f = signed 100 2 ∨ f = signed 100 1 := by
  simpa only [contested, TxSet.ofFrames, List.mem_cons, List.not_mem_nil, or_false, or_self]
    using hf

/-- Once its signature is checked, a transaction is sound exactly if its fee is enough. -/
theorem sound_signed_iff {fee : UInt32} {number : SequenceNumber}
    (h : (signed fee number).isSigned = true) :
    (signed fee number).Sound ledger.lastClosed.header false ↔ 100 ≤ fee.toNat := by
  refine ⟨fun hsound => hsound.fee.resolve_left Bool.false_ne_true, fun hfee => ?_⟩
  refine ⟨List.cons_ne_nil _ _, fun op hop => ?_, .inr hfee, Frame.isSigned_iff.1 h⟩
  rw [List.mem_singleton.1 hop]
  exact (by decide : (0 : Int) ≤ (5 : Int64).toInt)

theorem sequence_nonneg : ∀ a entry, ledger.load a = .ok entry → 0 ≤ entry.sequence.toInt := by
  intro a entry h
  have hall : ∀ e ∈ ledger.accounts.values, 0 ≤ e.sequence.toInt := by decide
  exact hall entry (LedgerState.mem_values_of_load h)

theorem amountsFit_agreed : agreed.AmountsFit (.ofState ledger) :=
  .of_size (by decide) (by decide) (by decide)

theorem amountsFit_contested : contested.AmountsFit (.ofState ledger) :=
  .of_size (by decide) (by decide) (by decide)

end Sample

end NextLedger
