import NextLedger.Proofs.Amounts
import NextLedger.Proofs.Orders
import NextLedger.TxSet.Priority

/-!
# What an account offers

An account counts for the lowest ratio of fee to least fee among its transactions. The lowest is
found by going through the transactions as they come, and a ratio of zero that was seen counts as
none (`ratio_accountFeeRatios`). This is the minimum, whatever the order, as long as all the ratios
are **positive** (`foldl_lowerRatio_perm`). They are for all fees but zero: the quotient is rounded,
but a positive one stays positive (`Binary64.positive_quotient`). The transactions that offer
nothing have one ratio in common, zero or, where nothing is asked for, no number.

So what an account offers does not depend on the order of arrival unless it offers both nothing and
something (`ratio_of_perm`).

The least fee in a ratio is an exact number. As long as it is an amount, it is the one that a check
asks for (`Frame.exists_feeRatio_eq`).
-/

namespace NextLedger

/-! ### Positive numbers -/

namespace Binary64

variable {x y : Binary64}

/-- Whether a pattern stands for a number above zero, infinity included. -/
def Positive (x : Binary64) : Prop := 0 < x.bits.toNat ∧ x.bits.toNat ≤ infinity.bits.toNat

theorem positive_infinity : infinity.Positive := ⟨by decide, le_rfl⟩

theorem Positive.magnitude_eq (h : x.Positive) : x.magnitude = x.bits.toNat := by
  have hle : x.bits.toNat ≤ 0x7FF0000000000000 := h.2
  exact Nat.mod_eq_of_lt (by omega)

theorem Positive.isZero_eq_false (h : x.Positive) : x.isZero = false := by
  rw [isZero, h.magnitude_eq, beq_eq_false_iff_ne]
  exact h.1.ne'

theorem Positive.isNaN_eq_false (h : x.Positive) : x.isNaN = false := by
  rw [isNaN, h.magnitude_eq, positive_infinity.magnitude_eq, decide_eq_false_iff_not]
  exact Nat.not_lt.2 h.2

theorem Positive.scale_eq (h : x.Positive) : x.scale = x.bits.toNat := by
  have hle : x.bits.toNat ≤ 0x7FF0000000000000 := h.2
  have hsign : x.isNegative = false := decide_eq_false_iff_not.2 (by omega)
  rw [scale, hsign, h.magnitude_eq]
  rfl

theorem eq_of_toNat_bits_eq (h : x.bits.toNat = y.bits.toNat) : x = y := by
  obtain ⟨v⟩ := x
  obtain ⟨w⟩ := y
  exact congrArg mk (UInt64.toNat_inj.1 h)

end Binary64

/-! ### The lowest ratio -/

section LowerRatio

variable {x y : Binary64}

theorem lowerRatio_of_isZero {z : Binary64} (hz : z.isZero = true) (x : Binary64) :
    lowerRatio z x = x := by simp [lowerRatio, hz]

theorem lowerRatio_of_isNaN {z : Binary64} (hzero : z.isZero = false) (hz : z.isNaN = true)
    (x : Binary64) : lowerRatio z x = z := by simp [lowerRatio, Binary64.less, hzero, hz]

theorem lowerRatio_of_isNumber {z : Binary64} (hzero : z.isZero = false) (hz : z.isNaN = false)
    (hx : x.Positive) : lowerRatio z x = if x.scale < z.scale then x else z := by
  simp [lowerRatio, Binary64.less, hzero, hz, hx.isNaN_eq_false]

/-- Of two positive ratios either order leaves the lower. -/
theorem lowerRatio_comm (hx : x.Positive) (hy : y.Positive) :
    lowerRatio x y = lowerRatio y x := by
  rw [lowerRatio_of_isNumber hx.isZero_eq_false hx.isNaN_eq_false hy,
    lowerRatio_of_isNumber hy.isZero_eq_false hy.isNaN_eq_false hx, hx.scale_eq, hy.scale_eq]
  rcases Nat.lt_trichotomy x.bits.toNat y.bits.toNat with hlt | heq | hgt
  · simp [hlt, hlt.not_gt]
  · simp [Binary64.eq_of_toNat_bits_eq heq]
  · simp [hgt, hgt.not_gt]

/-- Whatever was seen before, two positive ratios leave the same in either order. -/
theorem lowerRatio_right_comm (z : Binary64) (hx : x.Positive) (hy : y.Positive) :
    lowerRatio (lowerRatio z x) y = lowerRatio (lowerRatio z y) x := by
  cases hzero : z.isZero with
  | true => rw [lowerRatio_of_isZero hzero, lowerRatio_of_isZero hzero, lowerRatio_comm hx hy]
  | false =>
    cases hnan : z.isNaN with
    | true => simp only [lowerRatio_of_isNaN hzero hnan]
    | false =>
      have hzx := lowerRatio_of_isNumber hzero hnan hx
      have hzy := lowerRatio_of_isNumber hzero hnan hy
      have hxy := lowerRatio_of_isNumber hx.isZero_eq_false hx.isNaN_eq_false hy
      have hyx := lowerRatio_of_isNumber hy.isZero_eq_false hy.isNaN_eq_false hx
      by_cases hx' : x.scale < z.scale
      · by_cases hy' : y.scale < z.scale
        · rw [hzx, hzy, if_pos hx', if_pos hy', lowerRatio_comm hx hy]
        · rw [hzx, hzy, if_pos hx', if_neg hy', hzx, if_pos hx', hxy, if_neg (by omega)]
      · by_cases hy' : y.scale < z.scale
        · rw [hzx, hzy, if_neg hx', if_pos hy', hzy, if_pos hy', hyx, if_neg (by omega)]
        · rw [hzx, hzy, if_neg hx', if_neg hy', hzx, hzy, if_neg hx', if_neg hy']

/-- The lowest of positive ratios does not depend on their order. -/
theorem foldl_lowerRatio_perm {xs ys : List Binary64} (hpos : ∀ x ∈ xs, x.Positive)
    (h : xs.Perm ys) (z : Binary64) : xs.foldl lowerRatio z = ys.foldl lowerRatio z :=
  h.foldl_eq' (fun x hx y hy z => lowerRatio_right_comm z (hpos x hx) (hpos y hy)) z

end LowerRatio

/-! ### Rounding keeps quotients positive -/

namespace Binary64

theorem div_le_roundQuotient (n d : Nat) : n / d ≤ roundQuotient n d := by
  simp only [roundQuotient]
  split
  · exact le_rfl
  · split <;> omega

theorem roundQuotient_le (n d : Nat) : roundQuotient n d ≤ n / d + 1 := by
  simp only [roundQuotient]
  split
  · omega
  · split <;> omega

/-- A natural of no more than 53 bits is in the format. -/
theorem roundNat_of_lt {n : Nat} (hn : 0 < n) (h : n < 2 ^ 53) : roundNat n = n := by
  have hlog : n.log2 < 53 := (Nat.log2_lt hn.ne').2 h
  have hexcess : n.log2 + 1 - 53 = 0 := by omega
  simp [roundNat, hexcess, roundQuotient, Nat.mod_one]

theorem roundNat_pos {n : Nat} (hn : 0 < n) : 0 < roundNat n := by
  have hlow : 2 ^ (n.log2 + 1 - 53) ≤ n :=
    (Nat.pow_le_pow_right (by decide) (by omega)).trans (Nat.log2_self_le hn.ne')
  have hdiv : 1 ≤ n / 2 ^ (n.log2 + 1 - 53) := (Nat.one_le_div_iff (by positivity)).2 hlow
  have hround := hdiv.trans (div_le_roundQuotient n (2 ^ (n.log2 + 1 - 53)))
  simp only [roundNat, Nat.shiftLeft_eq, Nat.one_mul]
  exact Nat.mul_pos hround (by positivity)

/-- Shifted so far that it has 52 bits more than the lower side, or 53, the upper side of a quotient
is no less than the lower one, and below `2 ^ 54` times it. -/
theorem shifted_bounds {n d j : Nat} (hn : 0 < n) (hd : 0 < d)
    (hlow : d.log2 + 52 ≤ n.log2 + j) (hhigh : n.log2 + j ≤ d.log2 + 53) :
    d ≤ n * 2 ^ j ∧ n * 2 ^ j < d * 2 ^ 54 := by
  constructor
  · calc d ≤ 2 ^ (d.log2 + 1) := Nat.lt_log2_self.le
      _ ≤ 2 ^ (n.log2 + j) := Nat.pow_le_pow_right (by decide) (by omega)
      _ = 2 ^ n.log2 * 2 ^ j := Nat.pow_add 2 _ _
      _ ≤ n * 2 ^ j := Nat.mul_le_mul_right _ (Nat.log2_self_le hn.ne')
  · calc n * 2 ^ j < 2 ^ (n.log2 + 1) * 2 ^ j :=
        Nat.mul_lt_mul_of_pos_right Nat.lt_log2_self (by positivity)
      _ = 2 ^ (n.log2 + 1 + j) := (Nat.pow_add 2 _ _).symm
      _ ≤ 2 ^ (d.log2 + 54) := Nat.pow_le_pow_right (by decide) (by omega)
      _ = 2 ^ d.log2 * 2 ^ 54 := Nat.pow_add 2 _ _
      _ ≤ d * 2 ^ 54 := Nat.mul_le_mul_right _ (Nat.log2_self_le hd.ne')

/-- A quotient of positive naturals, of which the upper has no more than 32 bits, is positive. -/
theorem positive_ofQuotient {n d : Nat} (hn : 0 < n) (hsize : n < 2 ^ 32) (hd : 0 < d) :
    (ofQuotient n d).Positive := by
  have hnlog : n.log2 < 32 := (Nat.log2_lt hn.ne').2 hsize
  simp only [ofQuotient]
  set k : Int := (n.log2 : Int) - d.log2 with hk
  generalize hreaches : (if decide (d <<< k.toNat ≤ n <<< (-k).toNat) then k else k - 1) = e
  have he : k - 1 ≤ e ∧ e ≤ k := by
    rw [← hreaches]
    split <;> omega
  -- The exponent is below 52, so that the upper side alone is shifted.
  obtain ⟨j, hj⟩ : ∃ j : Nat, (j : Int) = 52 - e := ⟨(52 - e).toNat, by omega⟩
  have hup : (52 - e).toNat = j := by omega
  have hdown : (e - 52).toNat = 0 := by omega
  simp only [hup, hdown, Nat.shiftLeft_eq, Nat.pow_zero, Nat.mul_one]
  obtain ⟨hlow, hhigh⟩ := shifted_bounds hn hd (j := j) (by omega) (by omega)
  have hpos : 1 ≤ roundQuotient (n * 2 ^ j) d :=
    ((Nat.one_le_div_iff hd).2 hlow).trans (div_le_roundQuotient _ _)
  have hle : roundQuotient (n * 2 ^ j) d ≤ 2 ^ 54 :=
    (roundQuotient_le _ _).trans (Nat.div_lt_of_lt_mul hhigh)
  generalize roundQuotient (n * 2 ^ j) d = m at hpos hle
  have hexponent : (e + 1022).toNat ≤ 1053 := by omega
  have hbits : (e + 1022).toNat * 2 ^ 52 + m ≤ infinity.bits.toNat := by
    change _ ≤ 0x7FF0000000000000
    omega
  have hword : infinity.bits.toNat < UInt64.size := infinity.bits.toNat_lt
  have hexact : (UInt64.ofNat ((e + 1022).toNat * 2 ^ 52 + m)).toNat =
      (e + 1022).toNat * 2 ^ 52 + m := UInt64.toNat_ofNat_of_lt' (by omega)
  rw [Positive, hexact]
  exact ⟨by omega, hbits⟩

/-- A fee that is not zero gives a positive quotient, infinite if nothing is asked for. -/
theorem positive_quotient {n : Nat} (hn : 0 < n) (hsize : n < 2 ^ 32) (d : Nat) :
    (quotient n d).Positive := by
  rw [quotient, if_neg hn.ne']
  split
  · exact positive_infinity
  · rename_i hd
    rw [roundNat_of_lt hn (by omega)]
    exact positive_ofQuotient hn hsize (roundNat_pos (Nat.pos_of_ne_zero hd))

end Binary64

/-! ### An account's ratio -/

namespace Frame

variable {f : Frame}

theorem positive_feeRatio (header : LedgerHeader) (h : f.transaction.fee ≠ 0) :
    (f.feeRatio header).Positive := by
  have hpos : 0 < f.transaction.fee.toNat := by
    refine Nat.pos_of_ne_zero fun hzero => h ?_
    exact UInt32.toNat_inj.1 hzero
  exact Binary64.positive_quotient hpos f.transaction.fee.toNat_lt _

/-- All transactions that offer nothing have one ratio. -/
theorem feeRatio_of_fee_eq_zero (header : LedgerHeader) (h : f.transaction.fee = 0) :
    f.feeRatio header = if header.baseFee.toNat = 0 then .undefined else .zero := by
  have hminFee : header.minFee f.operationCount = 0 ↔ header.baseFee.toNat = 0 := by
    rw [LedgerHeader.minFee, Nat.mul_eq_zero]
    omega
  simp [feeRatio, Binary64.quotient, h, hminFee]

/-- As long as the least fee is an amount, the ratio is that of the fee to this amount. -/
theorem exists_feeRatio_eq {header : LedgerHeader}
    (h : (header.minFee f.operationCount : ℤ) ≤ Amount.greatest) :
    ∃ least, f.minFee? header = some least ∧
      f.feeRatio header = .quotient f.fee.toInt.toNat least.toInt.toNat := by
  obtain ⟨least, hleast, hexact⟩ := LedgerHeader.exists_minFee? h
  exact ⟨least, hleast, by rw [hexact, toInt_fee, Int.toNat_natCast, Int.toNat_natCast, feeRatio]⟩

end Frame

/-- An account's ratio is the lowest, in the sense of the fold, of its own transactions in their
order. -/
theorem ratio_accountFeeRatios (header : LedgerHeader) (fs : List Frame) (a : AccountId) :
    ((accountFeeRatios header fs).get? a).getD .zero =
      ((fs.filter fun f => f.source == a).map fun f => f.feeRatio header).foldl lowerRatio
        .zero := by
  suffices h : ∀ ratios : AccountMap Binary64,
      ((fs.foldl (fun ratios f => ratios.insert f.source
        (lowerRatio ((ratios.get? f.source).getD .zero) (f.feeRatio header))) ratios).get? a).getD
          .zero =
      ((fs.filter fun f => f.source == a).map fun f => f.feeRatio header).foldl lowerRatio
        ((ratios.get? a).getD .zero) from h .empty
  -- The map grows along the fold, so the statement is about any map to start from.
  induction fs with
  | nil => exact fun _ => rfl
  | cons f fs ih =>
    intro ratios
    rw [List.foldl_cons, ih, AccountMap.get?_insert, List.filter_cons]
    by_cases hfa : f.source = a
    · simp [hfa]
    · simp [hfa]

/-- What an account offers does not depend on the order of its transactions, unless it offers both
nothing and something. -/
theorem ratio_of_perm {header : LedgerHeader} {fs gs : List Frame} {a : AccountId}
    (hfees : ∀ f ∈ fs, ∀ g ∈ fs, f.source = a → g.source = a →
      (f.transaction.fee = 0 ↔ g.transaction.fee = 0)) (h : fs.Perm gs) :
    ((accountFeeRatios header fs).get? a).getD .zero =
      ((accountFeeRatios header gs).get? a).getD .zero := by
  rw [ratio_accountFeeRatios, ratio_accountFeeRatios]
  have hperm : ((fs.filter fun f => f.source == a).map fun f => f.feeRatio header).Perm
      ((gs.filter fun f => f.source == a).map fun f => f.feeRatio header) := (h.filter _).map _
  have hmem : ∀ x ∈ (fs.filter fun f => f.source == a).map (fun f => f.feeRatio header),
      ∃ f ∈ fs, f.source = a ∧ f.feeRatio header = x := fun x hx => by
    obtain ⟨f, hf, rfl⟩ := List.mem_map.1 hx
    obtain ⟨hf, hfa⟩ := List.mem_filter.1 hf
    exact ⟨f, hf, by simpa using hfa, rfl⟩
  by_cases hzero : ∃ f ∈ fs, f.source = a ∧ f.transaction.fee = 0
  · -- The ratios are all the same, and a list of them is determined by its length.
    obtain ⟨f, hf, hfa, hfee⟩ := hzero
    have hall := List.eq_replicate_of_mem fun x hx => by
      obtain ⟨g, hg, hga, hgx⟩ := hmem x hx
      rw [← hgx, Frame.feeRatio_of_fee_eq_zero header ((hfees f hf g hg hfa hga).1 hfee)]
    rw [hall] at hperm ⊢
    rw [List.replicate_perm.1 hperm]
  · refine foldl_lowerRatio_perm (fun x hx => ?_) hperm .zero
    obtain ⟨g, hg, hga, hgx⟩ := hmem x hx
    rw [← hgx]
    exact Frame.positive_feeRatio header fun hfee => hzero ⟨g, hg, hga, hfee⟩

end NextLedger
