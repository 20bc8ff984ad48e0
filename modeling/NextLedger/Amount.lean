/-!
# Amounts

Balances, fees and sequence numbers are signed 64-bit numbers. Where an exact result may leave that
range, an operation is computed on integers and brought back in one of two ways: **checked**, which
refuses what does not fit, or **clamped**, which stops at the nearer end of the range.
-/

namespace NextLedger

/-- A balance or a fee, in the smallest unit. -/
abbrev Amount := Int64

/-- The number of a transaction among those of its source account. -/
abbrev SequenceNumber := Int64

namespace Amount

/-- The least signed 64-bit number. -/
def least : Int := -0x8000000000000000

/-- The greatest signed 64-bit number. -/
def greatest : Int := 0x7FFFFFFFFFFFFFFF

/-- An integer as an amount, if it fits. -/
def ofInt? (n : Int) : Option Amount :=
  if least ≤ n ∧ n ≤ greatest then some (Int64.ofInt n) else none

/-- The amount nearest to an integer. -/
def clamp (n : Int) : Amount :=
  if n < least then Int64.ofInt least
  else if greatest < n then Int64.ofInt greatest
  else Int64.ofInt n

/-- The sum, stopped at the ends of the range. -/
def addClamped (a b : Amount) : Amount := clamp (a.toInt + b.toInt)

/-- The difference, stopped at the ends of the range. -/
def subClamped (a b : Amount) : Amount := clamp (a.toInt - b.toInt)

theorem toInt_of_ofInt? {n : Int} {a : Amount} (h : ofInt? n = some a) : a.toInt = n := by
  unfold ofInt? least greatest at h
  split at h
  · rename_i hn
    cases h
    exact Int64.toInt_ofInt_of_le hn.1 (by omega)
  · simp at h

theorem ofInt?_eq_none_iff {n : Int} : ofInt? n = none ↔ n < least ∨ greatest < n := by
  unfold ofInt?
  split <;> simp <;> omega

theorem toInt_clamp (n : Int) : (clamp n).toInt = max least (min n greatest) := by
  unfold clamp
  split
  · rw [Int64.toInt_ofInt_of_le] <;> simp only [least, greatest] at * <;> omega
  · split
    · rw [Int64.toInt_ofInt_of_le] <;> simp only [least, greatest] at * <;> omega
    · rw [Int64.toInt_ofInt_of_le] <;> simp only [least, greatest] at * <;> omega

end Amount

end NextLedger
