import Mathlib
import NextLedger.Text.Utf8

/-!
# UTF-8 is exact

Octets are read as a text exactly if they are its octets (`decode_eq_ok_iff`). A character takes one
to four octets; the first tells how many, and each of the others is a continuation that carries six
bits of the number.

In one direction, the octets of a text are read back as the text. The two special bounds on second
octets leave out no character: a number that is written in three or four octets needs them, and no
character is a surrogate. In the other, these bounds let nothing else in: whatever is read is a
character, and it would not have been written in fewer octets.
-/

namespace NextLedger

namespace Utf8

/-! ### Continuations -/

theorem isContinuation_ofNat {m : Nat} (h : m < 64) :
    isContinuation (UInt8.ofNat (0x80 + m)) = true := by
  have hm : (UInt8.ofNat (0x80 + m)).toNat = 0x80 + m :=
    UInt8.toNat_ofNat_of_lt' (show _ < 256 by omega)
  simp only [isContinuation, Bool.and_eq_true, decide_eq_true_eq, UInt8.le_iff_toNat_le, hm]
  simp
  omega

theorem payload_ofNat {m : Nat} (h : m < 64) : payload (UInt8.ofNat (0x80 + m)) = m := by
  have hm : (UInt8.ofNat (0x80 + m)).toNat = 0x80 + m :=
    UInt8.toNat_ofNat_of_lt' (show _ < 256 by omega)
  unfold payload
  rw [hm]
  omega

/-- The second octet of a character that takes three. -/
theorem isSecondOfThree_ofNat {n : Nat} (hlow : 0x800 ≤ n) (hhigh : n < 0x10000)
    (hsurrogate : n < 0xD800 ∨ 0xDFFF < n) :
    isSecondOfThree (UInt8.ofNat (0xE0 + n / 4096)) (UInt8.ofNat (0x80 + n / 64 % 64)) = true := by
  have ha : (UInt8.ofNat (0xE0 + n / 4096)).toNat = 0xE0 + n / 4096 :=
    UInt8.toNat_ofNat_of_lt' (show _ < 256 by omega)
  have hb : (UInt8.ofNat (0x80 + n / 64 % 64)).toNat = 0x80 + n / 64 % 64 :=
    UInt8.toNat_ofNat_of_lt' (show _ < 256 by omega)
  simp only [isSecondOfThree, beq_iff_eq, ← UInt8.toNat_inj, ha]
  -- After E0 the number is at least 0x800, after ED it is below the surrogates.
  split
  · simp only [Bool.and_eq_true, decide_eq_true_eq, UInt8.le_iff_toNat_le, hb]
    simp at *
    omega
  · split
    · simp only [Bool.and_eq_true, decide_eq_true_eq, UInt8.le_iff_toNat_le, hb]
      simp at *
      omega
    · exact isContinuation_ofNat (Nat.mod_lt _ (by decide))

/-- The second octet of a character that takes four. -/
theorem isSecondOfFour_ofNat {n : Nat} (hlow : 0x10000 ≤ n) (hhigh : n < 0x110000) :
    isSecondOfFour (UInt8.ofNat (0xF0 + n / 262144)) (UInt8.ofNat (0x80 + n / 4096 % 64)) =
      true := by
  have ha : (UInt8.ofNat (0xF0 + n / 262144)).toNat = 0xF0 + n / 262144 :=
    UInt8.toNat_ofNat_of_lt' (show _ < 256 by omega)
  have hb : (UInt8.ofNat (0x80 + n / 4096 % 64)).toNat = 0x80 + n / 4096 % 64 :=
    UInt8.toNat_ofNat_of_lt' (show _ < 256 by omega)
  simp only [isSecondOfFour, beq_iff_eq, ← UInt8.toNat_inj, ha]
  -- After F0 the number is at least 0x10000, after F4 it is at most 0x10FFFF.
  split
  · simp only [Bool.and_eq_true, decide_eq_true_eq, UInt8.le_iff_toNat_le, hb]
    simp at *
    omega
  · split
    · simp only [Bool.and_eq_true, decide_eq_true_eq, UInt8.le_iff_toNat_le, hb]
      simp at *
      omega
    · exact isContinuation_ofNat (Nat.mod_lt _ (by decide))

/-! ### Characters -/

/-- The first octet of a character and what reads the others. -/
theorem readChar_ofNat {k : Nat} (hk : k < 256) (rest : Bytes) :
    readChar (UInt8.ofNat k) rest =
      if k < 0x80 then .ok (Char.ofNat k, rest)
      else if 0xC2 ≤ k ∧ k ≤ 0xDF then readTwo (UInt8.ofNat k) rest
      else if 0xE0 ≤ k ∧ k ≤ 0xEF then readThree (UInt8.ofNat k) rest
      else if 0xF0 ≤ k ∧ k ≤ 0xF4 then readFour (UInt8.ofNat k) rest
      else .error (.invalid 1 0) := by
  have h : (UInt8.ofNat k).toNat = k := UInt8.toNat_ofNat_of_lt' hk
  simp [readChar, UInt8.lt_iff_toNat_lt, UInt8.le_iff_toNat_le, h]

/-- A character is read back from its octets, whatever follows them. -/
theorem readChar_encodeChar (c : Char) (rest : Bytes) :
    ∃ a bs, encodeChar c = a :: bs ∧ readChar a (bs ++ rest) = .ok (c, rest) := by
  have hvalid : c.toNat < 0xD800 ∨ 0xDFFF < c.toNat ∧ c.toNat < 0x110000 := c.valid
  have hc : Char.ofNat c.toNat = c := Char.ofNat_toNat c
  rw [encodeChar]
  generalize c.toNat = n at hvalid hc
  split_ifs with hone htwo hthree
  · -- one octet
    refine ⟨_, _, rfl, ?_⟩
    rw [readChar_ofNat (by omega), if_pos hone, hc]
    rfl
  · -- two octets
    refine ⟨_, _, rfl, ?_⟩
    have ha : (UInt8.ofNat (0xC0 + n / 64)).toNat = 0xC0 + n / 64 :=
      UInt8.toNat_ofNat_of_lt' (show _ < 256 by omega)
    have hsum : (0xC0 + n / 64 - 0xC0) * 64 + n % 64 = n := by omega
    rw [readChar_ofNat (by omega), if_neg (by omega), if_pos (by omega)]
    simp only [List.cons_append, List.nil_append, readTwo,
      isContinuation_ofNat (Nat.mod_lt n (by decide : 0 < 64)), if_true, ha,
      payload_ofNat (Nat.mod_lt n (by decide : 0 < 64)), hsum, hc]
  · -- three octets
    refine ⟨_, _, rfl, ?_⟩
    have ha : (UInt8.ofNat (0xE0 + n / 4096)).toNat = 0xE0 + n / 4096 :=
      UInt8.toNat_ofNat_of_lt' (show _ < 256 by omega)
    have hsum : (0xE0 + n / 4096 - 0xE0) * 4096 + n / 64 % 64 * 64 + n % 64 = n := by omega
    rw [readChar_ofNat (by omega), if_neg (by omega), if_neg (by omega), if_pos (by omega)]
    simp only [List.cons_append, List.nil_append, readThree,
      isSecondOfThree_ofNat (by omega) hthree (by omega),
      isContinuation_ofNat (Nat.mod_lt n (by decide : 0 < 64)), if_true, ha,
      payload_ofNat (Nat.mod_lt n (by decide : 0 < 64)),
      payload_ofNat (Nat.mod_lt (n / 64) (by decide : 0 < 64)), hsum, hc]
  · -- four octets
    refine ⟨_, _, rfl, ?_⟩
    have ha : (UInt8.ofNat (0xF0 + n / 262144)).toNat = 0xF0 + n / 262144 :=
      UInt8.toNat_ofNat_of_lt' (show _ < 256 by omega)
    have hsum : (0xF0 + n / 262144 - 0xF0) * 262144 + n / 4096 % 64 * 4096 + n / 64 % 64 * 64 +
        n % 64 = n := by omega
    rw [readChar_ofNat (by omega), if_neg (by omega), if_neg (by omega), if_neg (by omega),
      if_pos (by omega)]
    simp only [List.cons_append, List.nil_append, readFour,
      isSecondOfFour_ofNat (Nat.le_of_not_lt hthree) (by omega),
      isContinuation_ofNat (Nat.mod_lt n (by decide : 0 < 64)),
      isContinuation_ofNat (Nat.mod_lt (n / 64) (by decide : 0 < 64)), if_true, ha,
      payload_ofNat (Nat.mod_lt n (by decide : 0 < 64)),
      payload_ofNat (Nat.mod_lt (n / 64) (by decide : 0 < 64)),
      payload_ofNat (Nat.mod_lt (n / 4096) (by decide : 0 < 64)), hsum, hc]

theorem decodeFrom_encode (cs : List Char) (fuel index : Nat) (hfuel : (encode cs).length ≤ fuel) :
    decodeFrom fuel index (encode cs) = .ok cs := by
  induction cs generalizing fuel index with
  | nil => cases fuel <;> rfl
  | cons c cs ih =>
    obtain ⟨a, bs, hchar, hread⟩ := readChar_encodeChar c (encode cs)
    have hcons : encode (c :: cs) = a :: (bs ++ encode cs) := by
      rw [encode, List.flatMap_cons, hchar]
      rfl
    rw [hcons] at hfuel ⊢
    cases fuel with
    | zero => simp at hfuel
    | succ fuel =>
      simp only [List.length_cons, List.length_append] at hfuel
      simp only [decodeFrom, hread, ih fuel _ (by omega)]

/-- **Reading back.** The octets of a text are read as the text. -/
theorem decode_encode (cs : List Char) : decode (encode cs) = .ok cs :=
  decodeFrom_encode cs _ 0 le_rfl

/-! ### Octets as numbers -/

theorem isContinuation_iff {b : UInt8} :
    isContinuation b = true ↔ 0x80 ≤ b.toNat ∧ b.toNat ≤ 0xBF := by
  simp [isContinuation, UInt8.le_iff_toNat_le]

/-- After E0 the second octet leaves out the numbers that two octets write, after ED the
surrogates. -/
theorem bounds_of_isSecondOfThree {a b : UInt8} (h : isSecondOfThree a b = true) :
    0x80 ≤ b.toNat ∧ b.toNat ≤ 0xBF ∧ (a.toNat = 0xE0 → 0xA0 ≤ b.toNat) ∧
      (a.toNat = 0xED → b.toNat ≤ 0x9F) := by
  simp only [isSecondOfThree, isContinuation, beq_iff_eq, ← UInt8.toNat_inj] at h
  split_ifs at h with h₁ h₂ <;>
    simp only [Bool.and_eq_true, decide_eq_true_eq, UInt8.le_iff_toNat_le] at h <;>
    simp at * <;> omega

/-- After F0 the second octet leaves out the numbers that three octets write, after F4 those beyond
the last character. -/
theorem bounds_of_isSecondOfFour {a b : UInt8} (h : isSecondOfFour a b = true) :
    0x80 ≤ b.toNat ∧ b.toNat ≤ 0xBF ∧ (a.toNat = 0xF0 → 0x90 ≤ b.toNat) ∧
      (a.toNat = 0xF4 → b.toNat ≤ 0x8F) := by
  simp only [isSecondOfFour, isContinuation, beq_iff_eq, ← UInt8.toNat_inj] at h
  split_ifs at h with h₁ h₂ <;>
    simp only [Bool.and_eq_true, decide_eq_true_eq, UInt8.le_iff_toNat_le] at h <;>
    simp at * <;> omega

/-- An octet is told by its number. -/
theorem ofNat_of_toNat_eq {b : UInt8} {n : Nat} (h : b.toNat = n) : UInt8.ofNat n = b := by
  rw [← h, UInt8.ofNat_toNat]

/-! ### Writing back -/

/-- The octets of the character with a given number. -/
theorem encodeChar_ofNat {n : Nat} (h : n < 0xD800 ∨ 0xDFFF < n ∧ n < 0x110000) :
    encodeChar (Char.ofNat n) =
      if n < 0x80 then [UInt8.ofNat n]
      else if n < 0x800 then [UInt8.ofNat (0xC0 + n / 64), UInt8.ofNat (0x80 + n % 64)]
      else if n < 0x10000 then
        [UInt8.ofNat (0xE0 + n / 4096), UInt8.ofNat (0x80 + n / 64 % 64),
          UInt8.ofNat (0x80 + n % 64)]
      else
        [UInt8.ofNat (0xF0 + n / 262144), UInt8.ofNat (0x80 + n / 4096 % 64),
          UInt8.ofNat (0x80 + n / 64 % 64), UInt8.ofNat (0x80 + n % 64)] := by
  have hvalid : n.isValidChar := h
  simp only [encodeChar, Char.toNat_ofNat, if_pos hvalid]

/-- What a continuation carries. -/
theorem payload_eq (b : UInt8) : payload b = b.toNat - 0x80 := rfl

theorem eq_encodeChar_of_readTwo {a : UInt8} {bs rest : Bytes} {c : Char}
    (ha : 0xC2 ≤ a.toNat ∧ a.toNat ≤ 0xDF) (h : readTwo a bs = .ok (c, rest)) :
    a :: bs = encodeChar c ++ rest := by
  cases bs with
  | nil => simp [readTwo] at h
  | cons b bs =>
    rw [readTwo] at h
    by_cases hb : isContinuation b = true
    · rw [if_pos hb] at h
      obtain ⟨rfl, rfl⟩ := Prod.mk.inj (Except.ok.inj h)
      have hb := isContinuation_iff.1 hb
      have hpayload := payload_eq b
      rw [encodeChar_ofNat (by omega), if_neg (by omega), if_pos (by omega),
        ofNat_of_toNat_eq (b := a) (by omega), ofNat_of_toNat_eq (b := b) (by omega)]
      rfl
    · rw [if_neg hb] at h
      exact nomatch h

theorem eq_encodeChar_of_readThree {a : UInt8} {bs rest : Bytes} {c : Char}
    (ha : 0xE0 ≤ a.toNat ∧ a.toNat ≤ 0xEF) (h : readThree a bs = .ok (c, rest)) :
    a :: bs = encodeChar c ++ rest := by
  rcases bs with _ | ⟨b, _ | ⟨d, bs⟩⟩
  · simp [readThree] at h
  · by_cases hb : isSecondOfThree a b = true <;> simp [readThree, hb] at h
  · by_cases hb : isSecondOfThree a b = true
    · by_cases hd : isContinuation d = true
      · simp only [readThree, if_pos hb, if_pos hd] at h
        obtain ⟨rfl, rfl⟩ := Prod.mk.inj (Except.ok.inj h)
        have hb := bounds_of_isSecondOfThree hb
        have hd := isContinuation_iff.1 hd
        have hpayloadb := payload_eq b
        have hpayloadd := payload_eq d
        rw [encodeChar_ofNat (by omega), if_neg (by omega), if_neg (by omega), if_pos (by omega),
          ofNat_of_toNat_eq (b := a) (by omega), ofNat_of_toNat_eq (b := b) (by omega),
          ofNat_of_toNat_eq (b := d) (by omega)]
        rfl
      · simp [readThree, hb, hd] at h
    · simp [readThree, hb] at h

theorem eq_encodeChar_of_readFour {a : UInt8} {bs rest : Bytes} {c : Char}
    (ha : 0xF0 ≤ a.toNat ∧ a.toNat ≤ 0xF4) (h : readFour a bs = .ok (c, rest)) :
    a :: bs = encodeChar c ++ rest := by
  rcases bs with _ | ⟨b, _ | ⟨d, _ | ⟨e, bs⟩⟩⟩
  · simp [readFour] at h
  · by_cases hb : isSecondOfFour a b = true <;> simp [readFour, hb] at h
  · by_cases hb : isSecondOfFour a b = true <;> by_cases hd : isContinuation d = true <;>
      simp [readFour, hb, hd] at h
  · by_cases hb : isSecondOfFour a b = true
    · by_cases hd : isContinuation d = true
      · by_cases he : isContinuation e = true
        · simp only [readFour, if_pos hb, if_pos hd, if_pos he] at h
          obtain ⟨rfl, rfl⟩ := Prod.mk.inj (Except.ok.inj h)
          have hb := bounds_of_isSecondOfFour hb
          have hd := isContinuation_iff.1 hd
          have he := isContinuation_iff.1 he
          have hpayloadb := payload_eq b
          have hpayloadd := payload_eq d
          have hpayloade := payload_eq e
          rw [encodeChar_ofNat (by omega), if_neg (by omega), if_neg (by omega),
            if_neg (by omega), ofNat_of_toNat_eq (b := a) (by omega),
            ofNat_of_toNat_eq (b := b) (by omega), ofNat_of_toNat_eq (b := d) (by omega),
            ofNat_of_toNat_eq (b := e) (by omega)]
          rfl
        · simp [readFour, hb, hd, he] at h
      · simp [readFour, hb, hd] at h
    · simp [readFour, hb] at h

/-- The first octet tells how many follow. -/
theorem eq_encodeChar_of_readChar {a : UInt8} {bs rest : Bytes} {c : Char}
    (h : readChar a bs = .ok (c, rest)) : a :: bs = encodeChar c ++ rest := by
  have ha : a = UInt8.ofNat a.toNat := UInt8.ofNat_toNat.symm
  rw [ha, readChar_ofNat a.toNat_lt, ← ha] at h
  split_ifs at h with hone htwo hthree hfour
  · obtain ⟨rfl, rfl⟩ := Prod.mk.inj (Except.ok.inj h)
    rw [encodeChar_ofNat (by omega), if_pos hone, ← ha]
    rfl
  · exact eq_encodeChar_of_readTwo htwo h
  · exact eq_encodeChar_of_readThree hthree h
  · exact eq_encodeChar_of_readFour hfour h

theorem eq_encode_of_decodeFrom {fuel index : Nat} {bs : Bytes} {cs : List Char}
    (hfuel : bs.length ≤ fuel) (h : decodeFrom fuel index bs = .ok cs) : bs = encode cs := by
  -- A character has at least one octet, so the fuel lasts.
  induction fuel generalizing index bs cs with
  | zero =>
    obtain rfl := List.length_eq_zero_iff.1 (Nat.le_zero.1 hfuel)
    cases h
    rfl
  | succ fuel ih =>
    cases bs with
    | nil =>
      cases h
      rfl
    | cons a bs =>
      rw [decodeFrom] at h
      rcases hread : readChar a bs with fault | ⟨c, rest⟩
      · simp [hread] at h
      · have hchar := eq_encodeChar_of_readChar hread
        simp only [hread] at h
        rcases hrest : decodeFrom fuel (index + (encodeChar c).length) rest with fault | ds
        · simp [hrest] at h
        · simp only [hrest, Except.ok.injEq] at h
          have hlength := congrArg List.length hchar
          obtain ⟨b, bs', hcons, -⟩ := readChar_encodeChar c rest
          simp only [hcons, List.length_append, List.length_cons] at hlength hfuel
          rw [← h, hchar, ih (by omega) hrest]
          rfl

/-- **Reading is exact.** Octets are read as a text exactly if they are its octets. -/
theorem decode_eq_ok_iff {bs : Bytes} {cs : List Char} : decode bs = .ok cs ↔ bs = encode cs := by
  constructor
  · exact eq_encode_of_decodeFrom le_rfl
  · rintro rfl
    exact decode_encode cs

end Utf8

end NextLedger
