import Mathlib
import NextLedger.Json.Printer
import NextLedger.Json.Form

/-!
# Reading numbers and texts back

A printed value is read off the front of a longer text, so every statement here has the rest of the
text in it. A number has no closing mark of its own: what **ends** it is what follows, and after a
printed value that is a comma, a closing bracket, a line break or nothing.

The digits of a number have no leading zero, and they are added up from the left without leaving 64
bits. Each character of a text is escaped on its own, so one lemma says that the reader undoes one
escape, and an induction over the characters does the rest.
-/

namespace NextLedger

namespace Json

variable {α β : Type}

/-- Whether a text may follow a printed value. -/
def Ends (rest : List Char) : Prop := ∀ c ∈ rest.head?, c ∈ [',', ']', '}', '\n']

/-- Whether a reader takes `a` off the front of every text that goes on from `text`, with or without
blanks before it. -/
def Reads (r : Reader α) (text : List Char) (a : α) : Prop :=
  ∀ s rest, Ends rest → skipBlanks s = text ++ rest → r s = .ok (a, rest)

theorem Reads.map {r : Reader α} {text : List Char} {a : α} (h : Reads r text a) (g : α → β) :
    Reads (Reader.map g r) text (g a) := by
  intro s rest hrest hs
  simp only [Reader.map, h s rest hrest hs]

@[simp] theorem skipBlanks_cons {c : Char} (h : isBlank c = false) (s : List Char) :
    skipBlanks (c :: s) = c :: s := by
  simp [skipBlanks, h]

@[simp] theorem isBlank_marks : isBlank ',' = false ∧ isBlank ':' = false ∧ isBlank '"' = false ∧
    isBlank ']' = false ∧ isBlank '}' = false := by
  decide

/-! ### Numbers -/

theorem isDigit_of_mem_toDigits {n : Nat} {c : Char} (h : c ∈ Nat.toDigits 10 n) :
    c.isDigit = true :=
  Nat.isDigit_of_mem_toDigits (by decide) le_rfl h

theorem digitValue_digitChar {n : Nat} (h : n < 10) : digitValue n.digitChar = n := by
  have hall : ∀ n < 10, digitValue n.digitChar = n := by decide
  exact hall n h

/-- The digits of a number start with zero only if zero is the only one. -/
theorem exists_toDigits_eq_cons (n : Nat) :
    ∃ c cs, Nat.toDigits 10 n = c :: cs ∧ (c = '0' → cs = []) := by
  -- Along the digits from the right; all but the first come from the quotients by ten.
  have hpos : ∀ n, 0 < n → ∃ c cs, Nat.toDigits 10 n = c :: cs ∧ c ≠ '0' := by
    intro n
    induction n using Nat.strong_induction_on with
    | _ n ih =>
      intro hn
      rcases Nat.lt_or_ge n 10 with hlt | hge
      · have hall : ∀ n < 10, 0 < n → n.digitChar ≠ '0' := by decide
        exact ⟨_, _, Nat.toDigits_of_lt_base hlt, hall n hlt hn⟩
      · obtain ⟨c, cs, hdigits, hc⟩ := ih (n / 10) (by omega) (by omega)
        refine ⟨c, cs ++ [(n % 10).digitChar], ?_, hc⟩
        rw [Nat.toDigits_of_base_le (by decide) hge, hdigits, List.cons_append]
  rcases Nat.eq_zero_or_pos n with rfl | hn
  · exact ⟨'0', [], rfl, fun _ => rfl⟩
  · obtain ⟨c, cs, hdigits, hc⟩ := hpos n hn
    exact ⟨c, cs, hdigits, fun h => absurd h hc⟩

/-- One more digit is added up if the sum still fits. -/
theorem accumulate_concat {cs : List Char} {c : Char} {m k : Nat} (h : accumulate m cs = (k, 0))
    (hfits : k * 10 + digitValue c < UInt64.size) :
    accumulate m (cs ++ [c]) = (k * 10 + digitValue c, 0) := by
  induction cs generalizing m with
  | nil =>
    obtain rfl : m = k := congrArg Prod.fst h
    simp only [List.nil_append, accumulate, if_pos hfits]
  | cons d cs ih =>
    simp only [accumulate] at h
    split at h
    · rename_i hnext
      simp only [List.cons_append, accumulate, if_pos hnext, ih h]
    · simp at h

/-- The digits of a number of 64 bits add up to the number. -/
theorem accumulate_toDigits {n : Nat} (h : n < UInt64.size) :
    accumulate 0 (Nat.toDigits 10 n) = (n, 0) := by
  induction n using Nat.strong_induction_on with
  | _ n ih =>
    rcases Nat.lt_or_ge n 10 with hlt | hge
    · rw [Nat.toDigits_of_lt_base hlt]
      simp only [accumulate, digitValue_digitChar hlt, Nat.zero_mul, Nat.zero_add, if_pos h]
    · have hvalue : n / 10 * 10 + digitValue (n % 10).digitChar = n := by
        rw [digitValue_digitChar (Nat.mod_lt n (by decide))]
        omega
      rw [Nat.toDigits_of_base_le (by decide) hge,
        accumulate_concat (ih (n / 10) (by omega) (by omega)) (by rw [hvalue]; exact h), hvalue]

/-- A text that may follow a value does not go on with a number. -/
theorem Ends.eq_or_not_isDigit {rest : List Char} (h : Ends rest) :
    rest = [] ∨ ∃ c s, rest = c :: s ∧ c.isDigit = false ∧ c ≠ '.' ∧ c ≠ 'e' ∧ c ≠ 'E' := by
  cases rest with
  | nil => exact .inl rfl
  | cons c s =>
    have hall : ∀ c ∈ [',', ']', '}', '\n'],
        c.isDigit = false ∧ c ≠ '.' ∧ c ≠ 'e' ∧ c ≠ 'E' := by simp [Char.isDigit]
    exact .inr ⟨c, s, rfl, hall c (h c rfl)⟩

theorem takeWhile_toDigits_append {rest : List Char} (h : Ends rest) (n : Nat) :
    (Nat.toDigits 10 n ++ rest).takeWhile Char.isDigit = Nat.toDigits 10 n := by
  rw [List.takeWhile_append_of_pos fun c hc => isDigit_of_mem_toDigits hc]
  obtain rfl | ⟨c, s, rfl, hc, -⟩ := h.eq_or_not_isDigit <;> simp [*]

theorem dropWhile_toDigits_append {rest : List Char} (h : Ends rest) (n : Nat) :
    (Nat.toDigits 10 n ++ rest).dropWhile Char.isDigit = rest := by
  rw [List.dropWhile_append_of_pos fun c hc => isDigit_of_mem_toDigits hc]
  obtain rfl | ⟨c, s, rfl, hc, -⟩ := h.eq_or_not_isDigit <;> simp [*]

/-- The number without its sign that some digits write, if it is one of 64 bits. -/
theorem unsigned_toDigits {rest : List Char} (hrest : Ends rest) (negative : Bool) {n : Nat}
    (h : n < UInt64.size) :
    unsigned negative (Nat.toDigits 10 n ++ rest) =
      if !negative then .ok (.int n, rest)
      else if n = 0 ∨ 0x8000000000000000 < n then .ok (.other, rest)
      else .ok (.int (-n), rest) := by
  obtain ⟨c, cs, hdigits, hzero⟩ := exists_toDigits_eq_cons n
  have hsum := accumulate_toDigits h
  simp only [unsigned, takeWhile_toDigits_append hrest, dropWhile_toDigits_append hrest]
  rw [hdigits] at hsum ⊢
  split
  · rename_i hnil
    cases hnil
  · rename_i hcons
    injection hcons with hc hcs
    rw [hzero hc] at hcs
    cases hcs
  · obtain rfl | ⟨d, s, rfl, -, hpoint, hsmall, hlarge⟩ := hrest.eq_or_not_isDigit
    · simp [hsum]
    · simp [hsum, hpoint, hsmall, hlarge]

theorem decimal_of_nonneg {n : Int} (h : 0 ≤ n) : decimal n = Nat.toDigits 10 n.toNat := by
  rw [decimal, if_neg (by omega)]
  congr 1
  omega

theorem decimal_of_neg {n : Int} (h : n < 0) : decimal n = '-' :: Nat.toDigits 10 (-n).toNat := by
  rw [decimal, if_pos h]
  congr 2
  omega

/-- The first character of a printed number. -/
theorem exists_decimal_eq_cons (n : Int) :
    ∃ c cs, decimal n = c :: cs ∧ (c = '-' ∨ c.isDigit = true) := by
  rcases Int.lt_or_le n 0 with hneg | hpos
  · exact ⟨_, _, decimal_of_neg hneg, .inl rfl⟩
  · obtain ⟨c, cs, hdigits, -⟩ := exists_toDigits_eq_cons n.toNat
    refine ⟨c, cs, (decimal_of_nonneg hpos).trans hdigits, .inr ?_⟩
    exact isDigit_of_mem_toDigits (hdigits ▸ List.mem_cons_self)

theorem number_decimal {rest : List Char} (hrest : Ends rest) {n : Int}
    (hlow : -0x8000000000000000 ≤ n) (hhigh : n < UInt64.size) :
    number (decimal n ++ rest) = .ok (.int n, rest) := by
  have hsize : (UInt64.size : Int) = 0x10000000000000000 := rfl
  rcases Int.lt_or_le n 0 with hneg | hpos
  · have hrange : ¬ ((-n).toNat = 0 ∨ 0x8000000000000000 < (-n).toNat) := by omega
    have hvalue : -((-n).toNat : Int) = n := by omega
    rw [decimal_of_neg hneg, List.cons_append, number, unsigned_toDigits hrest true (by omega),
      if_neg (by decide), if_neg hrange, hvalue]
  · have hvalue : (n.toNat : Int) = n := by omega
    have hunsigned := unsigned_toDigits hrest false (n := n.toNat) (by omega)
    obtain ⟨c, cs, hdigits, -⟩ := exists_toDigits_eq_cons n.toNat
    have hsign : c ≠ '-' := by
      rintro rfl
      exact absurd (isDigit_of_mem_toDigits (hdigits ▸ List.mem_cons_self)) (by decide)
    rw [hvalue, hdigits, List.cons_append] at hunsigned
    rw [decimal_of_nonneg hpos, hdigits, List.cons_append, number]
    · exact hunsigned
    · exact fun s h => hsign (List.cons.inj h).1

/-- **Numbers.** A printed integer of 64 bits, signed or not, is read back. -/
theorem reads_int {n : Int} (hlow : -0x8000000000000000 ≤ n) (hhigh : n < UInt64.size) :
    Reads Reader.int (decimal n) n := by
  intro s rest hrest hs
  obtain ⟨c, cs, hdecimal, hc⟩ := exists_decimal_eq_cons n
  have hnumber := number_decimal hrest hlow hhigh
  rw [hdecimal, List.cons_append] at hs hnumber
  have hstart : (c = '-' || c.isDigit) = true := by simpa using hc
  simp only [Reader.int, hs, hstart, if_true, hnumber]
  rfl

/-! ### Texts -/

theorem hexValue?_digit {n : Nat} (h : n < 16) : hexValue? (Hex.digit n) = some n := by
  have hall : ∀ n < 16, hexValue? (Hex.digit n) = some n := by decide
  exact hall n h

/-- The reader undoes the escape of a control character by its number. -/
theorem unicodeEscape_control {n : Nat} (h : n < 0x20) (s : List Char) :
    unicodeEscape ('0' :: '0' :: Hex.digit (n / 16) :: Hex.digit (n % 16) :: s) =
      .ok (Char.ofNat n, s) := by
  have hzero : hexValue? '0' = some 0 := by decide
  have hhigh : hexValue? (Hex.digit (n / 16)) = some (n / 16) := hexValue?_digit (by omega)
  have hlow : hexValue? (Hex.digit (n % 16)) = some (n % 16) := hexValue?_digit (by omega)
  have hvalue : ((0 * 16 + 0) * 16 + n / 16) * 16 + n % 16 = n := by omega
  have hlast : ¬ (0xDC00 ≤ n ∧ n ≤ 0xDFFF) := by omega
  have hfirst : ¬ (0xD800 ≤ n ∧ n ≤ 0xDBFF) := by omega
  simp only [unicodeEscape, hex4, hzero, hhigh, hlow, hvalue]
  simp only [bind, Except.bind, if_neg hlast, if_neg hfirst]

/-- The reader undoes one escape. -/
theorem textBody_escapeChar (fuel : Nat) (c : Char) (s : List Char) :
    textBody (fuel + 1) (escapeChar c ++ s) =
      (textBody fuel s).map fun p => (c :: p.1, p.2) := by
  have hc : Char.ofNat c.toNat = c := Char.ofNat_toNat c
  have hbind : ∀ (d : Char) (rest : List Char), escape rest = .ok (d, s) →
      textBody (fuel + 1) ('\\' :: rest) =
        (textBody fuel s).map fun p => (d :: p.1, p.2) := by
    intro d rest hrest
    simp only [textBody, hrest, bind, Except.bind, pure, Except.pure, Except.map]
  unfold escapeChar
  split_ifs with hquote hslash hback htab hline hfeed hreturn hcontrol
  · exact hbind _ _ (by rw [hquote]; rfl)
  · exact hbind _ _ (by rw [hslash]; rfl)
  · exact hbind _ _ (by rw [← hc, hback]; rfl)
  · exact hbind _ _ (by rw [← hc, htab]; rfl)
  · exact hbind _ _ (by rw [← hc, hline]; rfl)
  · exact hbind _ _ (by rw [← hc, hfeed]; rfl)
  · exact hbind _ _ (by rw [← hc, hreturn]; rfl)
  · exact hbind _ _ ((unicodeEscape_control hcontrol s).trans (by rw [hc]))
  · simp only [List.cons_append, List.nil_append, textBody, if_neg hcontrol]
    rfl

theorem length_le_length_escaped (cs : List Char) :
    cs.length ≤ (cs.flatMap escapeChar).length := by
  induction cs with
  | nil => exact Nat.zero_le _
  | cons c cs ih =>
    have hpos : 0 < (escapeChar c).length := by unfold escapeChar; split_ifs <;> simp
    simp only [List.flatMap_cons, List.length_append, List.length_cons]
    omega

theorem textBody_escaped (fuel : Nat) (cs rest : List Char) (h : cs.length < fuel) :
    textBody fuel (cs.flatMap escapeChar ++ '"' :: rest) = .ok (cs, rest) := by
  induction cs generalizing fuel with
  | nil =>
    obtain ⟨fuel, rfl⟩ : ∃ k, fuel = k + 1 := Nat.exists_eq_add_one.2 h
    rfl
  | cons c cs ih =>
    obtain ⟨fuel, rfl⟩ : ∃ k, fuel = k + 1 := Nat.exists_eq_add_one.2 (by omega)
    rw [List.flatMap_cons, List.append_assoc, textBody_escapeChar,
      ih fuel (Nat.lt_of_succ_lt_succ h)]
    rfl

theorem quoted_append (t : String) (rest : List Char) :
    quoted t ++ rest = '"' :: (t.toList.flatMap escapeChar ++ '"' :: rest) := by
  simp only [quoted, List.cons_append, List.append_assoc, List.nil_append]

theorem textTail_escaped (t : String) (rest : List Char) :
    textTail (t.toList.flatMap escapeChar ++ '"' :: rest) = .ok (t, rest) := by
  have hlength := length_le_length_escaped t.toList
  have hbody := textBody_escaped
    ((t.toList.flatMap escapeChar ++ '"' :: rest).length + 1) t.toList rest (by
      rw [List.length_append]
      omega)
  simp only [textTail, hbody, bind, Except.bind, pure, Except.pure, String.ofList_toList]

/-- **Texts.** A printed text is read back, whatever characters it has. -/
theorem reads_text (t : String) : Reads Reader.text (quoted t) t := by
  intro s rest _ hs
  rw [quoted_append] at hs
  simp only [Reader.text, hs, textTail_escaped]

end Json

end NextLedger
