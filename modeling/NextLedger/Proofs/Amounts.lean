import Mathlib
import NextLedger.Transaction.Frame

/-!
# Amounts in exact numbers

Amounts are computed on integers and brought back into their range, checked or clamped. As long as
the exact result fits, what is brought back is the exact result. A comparison with a clamped
difference is exact even where the difference does not fit, as long as the other side is not
negative (`le_subClamped_iff`).
-/

namespace NextLedger

namespace Amount

theorem toInt_le_greatest (a : Amount) : a.toInt ≤ greatest := by
  have h := Int64.toInt_lt a
  simp only [greatest]
  omega

theorem least_le_toInt (a : Amount) : least ≤ a.toInt := by
  have h := Int64.le_toInt a
  simp only [least]
  omega

/-- A sum that stays in the range is exact. -/
theorem toInt_addClamped {a b : Amount} (hlow : least ≤ a.toInt + b.toInt)
    (hhigh : a.toInt + b.toInt ≤ greatest) : (addClamped a b).toInt = a.toInt + b.toInt := by
  rw [addClamped, toInt_clamp, min_eq_left hhigh, max_eq_right hlow]

/-- Clamped sums grow with what is added. -/
theorem le_addClamped {a b : Amount} (hb : 0 ≤ b.toInt) : a ≤ addClamped a b := by
  have hleast := least_le_toInt a
  have hgreatest := toInt_le_greatest a
  rw [Int64.le_iff_toInt_le, addClamped, toInt_clamp, le_max_iff, le_min_iff]
  omega

/-- Clamped differences shrink as more is taken away. -/
theorem subClamped_le_subClamped (a : Amount) {b c : Amount} (h : b ≤ c) :
    subClamped a c ≤ subClamped a b := by
  have hint := Int64.le_iff_toInt_le.1 h
  rw [Int64.le_iff_toInt_le, subClamped, subClamped, toInt_clamp, toInt_clamp]
  omega

/-- An amount that is not negative is compared with a difference as if that were exact. -/
theorem le_subClamped_iff {m a b : Amount} (hm : 0 ≤ m.toInt) :
    m ≤ subClamped a b ↔ m.toInt ≤ a.toInt - b.toInt := by
  have hgreatest := toInt_le_greatest m
  have hleast : least < 0 := by decide
  rw [Int64.le_iff_toInt_le, subClamped, toInt_clamp, le_max_iff, le_min_iff]
  omega

/-- A number is told from the next one after another without leaving the range. Nothing follows the
greatest number: its successor is no number. -/
theorem ne_next_iff (current n : SequenceNumber) :
    current.toInt = greatest ∨ n ≠ addClamped current 1 ↔ n.toInt ≠ current.toInt + 1 := by
  have hcurrent := toInt_le_greatest current
  have hn := toInt_le_greatest n
  by_cases hlast : current.toInt = greatest
  · simp only [hlast, true_or, true_iff]
    omega
  · have hexact : (addClamped current 1).toInt = current.toInt + 1 := by
      have hleast := least_le_toInt current
      rw [toInt_addClamped] <;> rw [Int64.toInt_one] <;> omega
    rw [← hexact, ne_eq, ne_eq, Int64.toInt_inj]
    simp [hlast]

theorem exists_ofInt? {n : Int} (hlow : 0 ≤ n) (hhigh : n ≤ greatest) :
    ∃ a : Amount, ofInt? n = some a ∧ a.toInt = n := by
  have hleast : least ≤ 0 := by decide
  cases h : ofInt? n with
  | none =>
    rcases ofInt?_eq_none_iff.1 h with h | h
    · omega
    · omega
  | some a => exact ⟨a, rfl, toInt_of_ofInt? h⟩

/-- An amount is the one nearest to the number that it stands for. -/
theorem eq_clamp_of_toInt_eq {a : Amount} {n : Int} (h : a.toInt = n) : a = clamp n := by
  rw [← Int64.toInt_inj, toInt_clamp, ← h, min_eq_left (toInt_le_greatest a),
    max_eq_right (least_le_toInt a)]

/-- A word of 64 bits whose sign bit is clear is read as itself. -/
theorem toInt_toInt64 {n : UInt64} (h : (n.toNat : Int) ≤ greatest) :
    n.toInt64.toInt = n.toNat := by
  rw [← Int64.toInt_toBitVec, UInt64.toBitVec_toInt64, BitVec.toInt_eq_toNat_of_lt]
  · rfl
  · simp only [greatest] at h
    rw [UInt64.toNat_toBitVec]
    omega

end Amount

namespace LedgerHeader

variable {header : LedgerHeader}

/-- A least fee that fits is computed exactly. -/
theorem exists_minFee? {n : Nat} (h : (header.minFee n : Int) ≤ Amount.greatest) :
    ∃ a : Amount, header.minFee? (UInt64.ofNat n) = some a ∧ a.toInt = header.minFee n := by
  have hexact : (header.baseFee.toNat * (max 1 (UInt64.ofNat n)).toInt64.toInt : Int) =
      header.minFee n := by
    -- A base fee of zero hides a count of operations that is too large for a word.
    rcases Nat.eq_zero_or_pos header.baseFee.toNat with hzero | hpos
    · simp [minFee, hzero]
    · have hn : ((max 1 n : Nat) : Int) ≤ Amount.greatest := by
        have hle : max 1 n ≤ header.minFee n := Nat.le_mul_of_pos_left _ hpos
        omega
      have hmax : (max 1 (UInt64.ofNat n)).toNat = max 1 n := by
        have hofNat : (UInt64.ofNat n).toNat = n := by
          simp only [Amount.greatest] at hn
          rw [UInt64.toNat_ofNat_of_lt']
          simp only [UInt64.size]
          omega
        rw [max_def]
        change (if (1 : UInt64) ≤ UInt64.ofNat n then UInt64.ofNat n else 1).toNat = _
        simp only [UInt64.le_iff_toNat_le, hofNat, UInt64.toNat_one]
        split
        · exact hofNat
        · rfl
      rw [Amount.toInt_toInt64 (by rw [hmax]; exact hn), hmax, minFee, Nat.cast_mul]
  rw [minFee?, hexact]
  exact Amount.exists_ofInt? (Int.natCast_nonneg _) h

/-- Least fees fit for as many operations as can occur in practice. -/
theorem minFee_le_greatest (header : LedgerHeader) {n : Nat} (h : n ≤ 2 ^ 31) :
    (header.minFee n : Int) ≤ Amount.greatest := by
  have hmul := Nat.mul_le_mul (Nat.le_sub_one_of_lt header.baseFee.toNat_lt)
    (max_le (by decide) h : max 1 n ≤ 2 ^ 31)
  rw [minFee, Amount.greatest]
  omega

/-- A least balance that fits is computed exactly. -/
theorem exists_minimumBalance? {n : UInt32}
    (h : (header.minimumBalance n : Int) ≤ Amount.greatest) :
    ∃ a : Amount, header.minimumBalance? n = some a ∧ a.toInt = header.minimumBalance n :=
  Amount.exists_ofInt? (Int.natCast_nonneg _) h

end LedgerHeader

theorem Frame.toInt_fee (f : Frame) : f.fee.toInt = f.transaction.fee.toNat := by
  have h := f.transaction.fee.toNat_lt
  rw [fee, Amount.toInt_toInt64, UInt32.toNat_toUInt64]
  rw [UInt32.toNat_toUInt64, Amount.greatest]
  omega

/-- A fee is told from one that is too small in exact numbers. -/
theorem Frame.fee_lt_iff (f : Frame) {minFee : Amount} {n : Nat} (h : minFee.toInt = n) :
    f.fee < minFee ↔ ¬ n ≤ f.transaction.fee.toNat := by
  rw [Int64.lt_iff_toInt_lt, toInt_fee, h]
  omega

end NextLedger
