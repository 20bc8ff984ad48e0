import NextLedger.Bytes.Lemmas
import NextLedger.Proofs.Comparison

/-!
# The masked order, bit by bit

A hash has three readings: a string of 32 octets, a row of 256 **bits**, and a number. Octets come
with the first one highest, bits with the highest of each octet first, and the number is the one
that both write. Exclusive or is the same operation in all three readings (`toNat_xor`, `bit_xor`),
and so is the order: it is that of the numbers (`toNat_lt_toNat_iff`), and it is settled by the
first bit in which two hashes differ (`lt_iff_exists_bit`).

A mask turns some bits over on both sides. The two hashes then still differ first where they did
before, and there the one that has the bit of the mask goes first (`lessMasked_iff_exists_bit`).
From this all the rest follows: a masked order is the order of numbers after the exclusive or, and
the masks without and with all bits give canonical order and its reverse.
-/

namespace NextLedger

/-! ### Octets as numbers -/

namespace Bytes

variable {l r : Bytes}

theorem toNatLE_append (l r : Bytes) :
    toNatLE (l ++ r) = toNatLE l + 2 ^ (8 * l.length) * toNatLE r := by
  induction l with
  | nil => simp [toNatLE]
  | cons b l ih =>
    have hpow : 2 ^ (8 * (l.length + 1)) = 256 * 2 ^ (8 * l.length) := by ring
    rw [List.cons_append, toNatLE, toNatLE, ih, List.length_cons, hpow]
    ring

/-- The first octet is the highest. -/
theorem toNatBE_cons (b : UInt8) (bs : Bytes) :
    toNatBE (b :: bs) = 2 ^ (8 * bs.length) * b.toNat + toNatBE bs := by
  rw [toNatBE, List.reverse_cons, toNatLE_append, List.length_reverse, toNatBE]
  simp [toNatLE, Nat.add_comm]

theorem toNatBE_lt (bs : Bytes) : toNatBE bs < 2 ^ (8 * bs.length) := by
  have h := toNatLE_lt bs.reverse
  rwa [List.length_reverse, show (256 : ℕ) = 2 ^ 8 from rfl, ← Nat.pow_mul] at h

/-- Octets of one length are ordered as the numbers that they write. -/
theorem toNatBE_lt_toNatBE_iff (h : l.length = r.length) : toNatBE l < toNatBE r ↔ l < r := by
  induction l generalizing r with
  | nil =>
    obtain rfl : r = [] := List.eq_nil_of_length_eq_zero h.symm
    simp
  | cons a l ih =>
    cases r with
    | nil => simp at h
    | cons b r =>
      have hlength : l.length = r.length := by simpa using h
      have hl := toNatBE_lt l
      have hr := toNatBE_lt r
      rw [toNatBE_cons, toNatBE_cons, List.cons_lt_cons_iff, ← ih hlength, UInt8.lt_iff_toNat_lt,
        ← UInt8.toNat_inj, hlength]
      rw [hlength] at hl
      -- The highest octet decides, unless it is the same on both sides.
      rcases Nat.lt_trichotomy a.toNat b.toNat with hlt | heq | hgt
      · have := Nat.mul_le_mul_left (2 ^ (8 * r.length)) (Nat.succ_le_of_lt hlt)
        rw [Nat.mul_succ] at this
        omega
      · simp [heq]
      · have := Nat.mul_le_mul_left (2 ^ (8 * r.length)) (Nat.succ_le_of_lt hgt)
        rw [Nat.mul_succ] at this
        omega

theorem toNatBE_inj (h : l.length = r.length) : toNatBE l = toNatBE r ↔ l = r := by
  refine ⟨fun heq => ?_, fun heq => heq ▸ rfl⟩
  have hl : ¬ l < r := fun hlt => (((toNatBE_lt_toNatBE_iff h).2 hlt).ne heq)
  have hr : ¬ r < l := fun hlt => (((toNatBE_lt_toNatBE_iff h.symm).2 hlt).ne heq.symm)
  exact List.le_antisymm hr hl

/-- The exclusive or of octets writes the exclusive or of the numbers. -/
theorem toNatBE_xor (h : l.length = r.length) : toNatBE (xor l r) = toNatBE l ^^^ toNatBE r := by
  induction l generalizing r with
  | nil =>
    obtain rfl : r = [] := List.eq_nil_of_length_eq_zero h.symm
    rfl
  | cons a l ih =>
    cases r with
    | nil => simp at h
    | cons b r =>
      have hlength : l.length = r.length := by simpa using h
      have hxor : xor (a :: l) (b :: r) = (a ^^^ b) :: xor l r := rfl
      have hl := toNatBE_lt l
      have hr := toNatBE_lt r
      rw [hxor, toNatBE_cons, toNatBE_cons, toNatBE_cons, ih hlength, length_xor hlength,
        UInt8.toNat_xor, ← hlength]
      rw [← hlength] at hr
      refine Nat.eq_of_testBit_eq fun i => ?_
      rw [Nat.testBit_xor, Nat.testBit_two_pow_mul_add _ (Nat.xor_lt_two_pow hl hr),
        Nat.testBit_two_pow_mul_add _ hl, Nat.testBit_two_pow_mul_add _ hr, Nat.testBit_xor,
        Nat.testBit_xor]
      split <;> rfl

/-- The bits of the number are those of the octets, the first octet and its highest bit first. -/
theorem testBit_toNatBE {bs : Bytes} {i : ℕ} (h : i < 8 * bs.length) :
    (toNatBE bs).testBit (8 * bs.length - 1 - i) =
      (bs.getD (i / 8) 0).toNat.testBit (7 - i % 8) := by
  induction bs generalizing i with
  | nil => simp at h
  | cons b bs ih =>
    rw [List.length_cons] at h ⊢
    rw [toNatBE_cons, Nat.testBit_two_pow_mul_add _ (toNatBE_lt bs)]
    rcases Nat.lt_or_ge i 8 with hi | hi
    · rw [if_neg (by omega), Nat.div_eq_of_lt hi, Nat.mod_eq_of_lt hi, List.getD_cons_zero]
      congr 1
      omega
    · obtain ⟨j, rfl⟩ := Nat.exists_eq_add_of_le' hi
      have hplace : 8 * (bs.length + 1) - 1 - (j + 8) = 8 * bs.length - 1 - j := by omega
      rw [if_pos (by omega), hplace, ih (by omega), Nat.add_div_right j (by decide),
        Nat.add_mod_right, List.getD_cons_succ]

end Bytes

namespace Hash256

variable {l r x : Hash256}

/-! ### Hashes as numbers -/

/-- The number of 256 bits that the octets write. -/
def toNat (h : Hash256) : ℕ := Bytes.toNatBE h.toBytes

theorem length_eq_length (l r : Hash256) : l.toBytes.length = r.toBytes.length := by simp

theorem toNat_lt_toNat_iff : l.toNat < r.toNat ↔ l < r :=
  (Bytes.toNatBE_lt_toNatBE_iff (length_eq_length l r)).trans lt_iff.symm

theorem toNat_inj : l.toNat = r.toNat ↔ l = r :=
  (Bytes.toNatBE_inj (length_eq_length l r)).trans ⟨ext, fun h => h ▸ rfl⟩

theorem toNat_xor (l r : Hash256) : (l.xor r).toNat = l.toNat ^^^ r.toNat :=
  Bytes.toNatBE_xor (length_eq_length l r)

/-- A masked order is that of the numbers after the exclusive or. -/
theorem orderMasked_eq_compare (mask l r : Hash256) :
    orderMasked mask l r = compare (l.toNat ^^^ mask.toNat) (r.toNat ^^^ mask.toNat) := by
  rw [orderMasked_eq_compareBy, compareBy, Nat.compare_eq_ite_lt]
  simp only [← toNat_lt_toNat_iff, toNat_xor]

/-! ### Hashes as bits -/

/-- A bit of a hash. The first is the highest bit of the first octet. -/
def bit (h : Hash256) (i : Fin 256) : Bool :=
  (h.toBytes.getD (i.val / 8) 0).toNat.testBit (7 - i.val % 8)

theorem testBit_toNat (h : Hash256) (i : Fin 256) : h.toNat.testBit (255 - i.val) = h.bit i := by
  have hi : i.val < 8 * h.toBytes.length := by simp
  have hbit := Bytes.testBit_toNatBE hi
  rwa [h.length_toBytes] at hbit

/-- The number of a hash has no more than 256 bits. -/
theorem testBit_toNat_of_le (h : Hash256) {j : ℕ} (hj : 256 ≤ j) : h.toNat.testBit j = false := by
  have hlt := Bytes.toNatBE_lt h.toBytes
  rw [h.length_toBytes] at hlt
  exact Nat.testBit_lt_two_pow (hlt.trans_le (Nat.pow_le_pow_right (by decide) hj))

/-- Every bit of the number of a hash is a bit of the hash, or lies beyond them. -/
theorem testBit_toNat_eq (h : Hash256) {j : ℕ} (hj : j < 256) :
    h.toNat.testBit j = h.bit ⟨255 - j, by omega⟩ := by
  rw [← testBit_toNat, Nat.sub_sub_self (by omega)]

theorem bit_xor (l r : Hash256) (i : Fin 256) : (l.xor r).bit i = (l.bit i ^^ r.bit i) := by
  simp only [← testBit_toNat, toNat_xor, Nat.testBit_xor]

/-- Hashes with the same bits are the same. -/
theorem eq_of_bit_eq (h : ∀ i, l.bit i = r.bit i) : l = r := by
  refine toNat_inj.1 (Nat.eq_of_testBit_eq fun j => ?_)
  rcases Nat.lt_or_ge j 256 with hj | hj
  · rw [testBit_toNat_eq l hj, testBit_toNat_eq r hj, h]
  · rw [testBit_toNat_of_le l hj, testBit_toNat_of_le r hj]

/-- Whether `i` is the first bit in which two hashes differ. -/
def FirstDifference (l r : Hash256) (i : Fin 256) : Prop := IsLeast {i | l.bit i ≠ r.bit i} i

theorem FirstDifference.symm {i : Fin 256} (h : FirstDifference l r i) : FirstDifference r l i :=
  ⟨h.1.symm, fun _ hj => h.2 (Ne.symm hj)⟩

/-- Two hashes differ exactly if there is a first bit in which they do. -/
theorem exists_firstDifference_iff : (∃ i, FirstDifference l r i) ↔ l ≠ r := by
  refine ⟨fun ⟨i, hi, _⟩ heq => hi (heq ▸ rfl), fun hne => ?_⟩
  have hdiffer : Set.Nonempty {i | l.bit i ≠ r.bit i} := by
    by_contra hnone
    exact hne (eq_of_bit_eq fun i => by_contra fun hi => hnone ⟨i, hi⟩)
  exact ⟨_, isLeast_csInf hdiffer⟩

/-- The hash that has the first bit in which two differ is the higher. -/
theorem lt_of_firstDifference {i : Fin 256} (h : FirstDifference l r i) (hbit : r.bit i = true) :
    l < r := by
  have hleft : l.bit i = false := by
    have hne : l.bit i ≠ r.bit i := h.1
    simpa [hbit] using hne
  refine toNat_lt_toNat_iff.1 (Nat.lt_of_testBit (255 - i.val) ?_ ?_ fun j hj => ?_)
  · rw [testBit_toNat, hleft]
  · rw [testBit_toNat, hbit]
  · rcases Nat.lt_or_ge j 256 with hj' | hj'
    · -- A higher bit of the number is an earlier one of the hash.
      rw [testBit_toNat_eq l hj', testBit_toNat_eq r hj']
      by_contra hne
      have hle : i.val ≤ 255 - j := h.2 hne
      omega
    · rw [testBit_toNat_of_le l hj', testBit_toNat_of_le r hj']

/-- The order of hashes is settled by the first bit in which they differ. -/
theorem lt_iff_exists_bit : l < r ↔ ∃ i, FirstDifference l r i ∧ r.bit i = true := by
  refine ⟨fun hlt => ?_, fun ⟨i, hi, hbit⟩ => lt_of_firstDifference hi hbit⟩
  obtain ⟨i, hi⟩ := exists_firstDifference_iff.2 (Std.ne_of_lt hlt)
  refine ⟨i, hi, ?_⟩
  by_contra hbit
  have hleft : l.bit i = true := by
    have hne : l.bit i ≠ r.bit i := hi.1
    rw [Bool.not_eq_true] at hbit
    simpa [hbit] using hne
  exact Std.lt_irrefl (Std.lt_trans hlt (lt_of_firstDifference hi.symm hleft))

/-! ### Masks -/

/-- A mask leaves the first difference where it is. -/
theorem firstDifference_xor {i : Fin 256} :
    FirstDifference (l.xor x) (r.xor x) i ↔ FirstDifference l r i := by
  have hsame : ∀ j, (l.xor x).bit j ≠ (r.xor x).bit j ↔ l.bit j ≠ r.bit j := fun j => by
    rw [bit_xor, bit_xor, Ne, Bool.xor_left_inj]
  simp only [FirstDifference, hsame]

/-- **Of two hashes the one with the mask's bit goes first**, where they differ first. -/
theorem lessMasked_iff_exists_bit :
    lessMasked x l r = true ↔ ∃ i, FirstDifference l r i ∧ l.bit i = x.bit i := by
  rw [lessMasked, decide_eq_true_iff, lt_iff_exists_bit]
  refine exists_congr fun i => ?_
  rw [firstDifference_xor, bit_xor]
  refine and_congr_right fun hi => ?_
  have hne : l.bit i ≠ r.bit i := hi.1
  cases hl : l.bit i <;> cases hr : r.bit i <;> cases hx : x.bit i <;> simp_all

/-- The hash with all bits. -/
def ones : Hash256 := ⟨.fill 32 0xFF⟩

theorem bit_fill (b : UInt8) (i : Fin 256) :
    bit ⟨.fill 32 b⟩ i = b.toNat.testBit (7 - i.val % 8) := by
  have hi : i.val / 8 < 32 := by omega
  simp only [bit, toBytes, ByteVec.fill, List.getD_replicate b hi]

theorem bit_zero (i : Fin 256) : zero.bit i = false := (bit_fill 0 i).trans (Nat.zero_testBit _)

theorem bit_ones (i : Fin 256) : ones.bit i = true := by
  have hall : ∀ k < 8, (0xFF : UInt8).toNat.testBit (7 - k) = true := by decide
  rw [ones, bit_fill, hall _ (Nat.mod_lt _ (by decide))]

/-- The mask without bits masks nothing. -/
theorem lessMasked_zero : lessMasked zero l r = true ↔ l < r := by
  rw [lessMasked_iff_exists_bit, lt_iff_exists_bit]
  refine exists_congr fun i => and_congr_right fun hi => ?_
  have hne : l.bit i ≠ r.bit i := hi.1
  rw [bit_zero]
  cases hl : l.bit i <;> cases hr : r.bit i <;> simp_all

/-- The mask with all bits reverses the order. -/
theorem lessMasked_ones : lessMasked ones l r = true ↔ r < l := by
  rw [lessMasked_iff_exists_bit, lt_iff_exists_bit]
  refine exists_congr fun i => ?_
  rw [bit_ones, show FirstDifference l r i ↔ FirstDifference r l i from ⟨.symm, .symm⟩]

/-! ### The masked order -/

instance (mask : Hash256) : Std.TransCmp (orderMasked mask) :=
  orderMasked_eq_compareBy mask ▸ inferInstance

theorem orderMasked_eq_lt_iff : orderMasked x l r = .lt ↔ lessMasked x l r = true := by
  rw [orderMasked]
  split_ifs with h <;> simp [h]

theorem orderMasked_eq_eq_iff : orderMasked x l r = .eq ↔ l = r := by
  rw [orderMasked_eq_compareBy, compareBy_eq_eq_iff, ← toNat_inj, toNat_xor, toNat_xor,
    Nat.xor_left_inj, toNat_inj]

/-- **The masked order is total and exact to the bit.** Under every mask, one of two hashes comes
before the other exactly if they differ and it has the bit of the mask where they differ first. Two
hashes have one of three standings, the middle one only if they are the same, and each of the three
goes on from pair to pair. The order is that of the numbers after the exclusive or, whether this is
taken of the octets or of the numbers. Without bits in the mask it is canonical order, and with all
bits the reverse. -/
theorem masked_order_is_total_and_bit_exact (x : Hash256) :
    (∀ l r, lessMasked x l r = true ↔ ∃ i, FirstDifference l r i ∧ l.bit i = x.bit i) ∧
    (∀ l r, (∃ i, FirstDifference l r i) ↔ l ≠ r) ∧
    (∀ l r, (orderMasked x l r = .lt ↔ lessMasked x l r = true) ∧
      (orderMasked x l r = .eq ↔ l = r) ∧
      (orderMasked x l r = .gt ↔ lessMasked x r l = true)) ∧
    (∀ l r, orderMasked x r l = (orderMasked x l r).swap) ∧
    (∀ o l m r, orderMasked x l m = o → orderMasked x m r = o → orderMasked x l r = o) ∧
    (∀ l r, orderMasked zero l r = l.order r) ∧
    (∀ l r, orderMasked ones l r = r.order l) ∧
    (∀ l r, orderMasked x l r = compare (l.xor x).toNat (r.xor x).toNat) ∧
    ∀ h : Hash256, (h.xor x).toNat = h.toNat ^^^ x.toNat := by
  refine ⟨fun l r => lessMasked_iff_exists_bit, fun l r => exists_firstDifference_iff,
    fun l r => ⟨orderMasked_eq_lt_iff, orderMasked_eq_eq_iff, ?_⟩,
    fun l r => Std.OrientedCmp.eq_swap, fun o l m r hlm hmr => ?_, fun l r => ?_, fun l r => ?_,
    fun l r => ?_, fun h => toNat_xor h x⟩
  · rw [Std.OrientedCmp.gt_iff_lt, orderMasked_eq_lt_iff]
  · exact trans_of_same hlm hmr
  · simp only [orderMasked, lessMasked_zero, order]
  · simp only [orderMasked, lessMasked_ones, order]
  · rw [orderMasked_eq_compare, toNat_xor, toNat_xor]

end Hash256

end NextLedger
