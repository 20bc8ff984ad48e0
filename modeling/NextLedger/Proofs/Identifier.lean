import Mathlib
import NextLedger.Account.Id
import NextLedger.Hash256
import NextLedger.Proofs.Text.Hex
import NextLedger.Text.LowerCase

/-!
# Identifiers and their texts

Reading a hexadecimal text has one of four ends, and which one it is depends on the octets of the
text and on nothing else (`ByteVec.ofHex_of_odd` and the lemmas after it). An odd count of octets
comes first. Then the octets are taken two by two, but the fault that is reported is still the first
**stray** of all, the first octet that is no digit, whether it stands first or second in its pair
(`decodeFrom_of_stray`). Where there is none, the characters are digits as well, one octet each, and
what is read is printed as the same digits in lower case (`exists_decodeFrom_of_subset`). Only then
does the length count.

Digits ascend with their values, so texts are ordered as the octets that they write
(`encode_lt_encode_iff`).
-/

namespace NextLedger

namespace Hex

/-! ### Digits -/

/-- The digits of either case. -/
def digits : List Char :=
  ['0', '1', '2', '3', '4', '5', '6', '7', '8', '9', 'a', 'b', 'c', 'd', 'e', 'f',
    'A', 'B', 'C', 'D', 'E', 'F']

/-- A digit is one octet, which has the value of the digit that stands for it in lower case. -/
theorem exists_value_of_mem_digits : ∀ c ∈ digits, ∃ v < 16,
    Utf8.encodeChar c = [UInt8.ofNat c.toNat] ∧ value? (UInt8.ofNat c.toNat) = some v ∧
      c ≠ 'Σ' ∧ LowerCase.lowerChar c = [digit v] := by
  rw [← List.forall_iff_forall_mem]
  decide

/-- An octet has a value exactly if it is that of a digit. -/
theorem exists_value_iff {b : UInt8} : (∃ v, value? b = some v) ↔ b ∈ Utf8.encode digits := by
  have hall : ∀ n < 256, (value? (UInt8.ofNat n)).isSome = true ↔
      UInt8.ofNat n ∈ Utf8.encode digits := by decide +kernel
  rw [← Option.isSome_iff_exists, ← UInt8.ofNat_toNat (x := b)]
  exact hall b.toNat b.toNat_lt

theorem value?_eq_none {b : UInt8} (hb : b ∉ Utf8.encode digits) : value? b = none :=
  Option.eq_none_iff_forall_ne_some.2 fun v hv => hb (exists_value_iff.1 ⟨v, hv⟩)

/-- Octets of digits are no octets of characters that take several. -/
theorem lt_of_mem_encode_digits {b : UInt8} (h : b ∈ Utf8.encode digits) : b.toNat < 0x80 := by
  have hall : ∀ b ∈ Utf8.encode digits, b.toNat < 0x80 := by
    rw [← List.forall_iff_forall_mem]
    decide
  exact hall b h

/-- A character is a digit exactly if its octets are octets of digits. -/
theorem encodeChar_subset_iff {c : Char} :
    Utf8.encodeChar c ⊆ Utf8.encode digits ↔ c ∈ digits := by
  refine ⟨fun h => ?_, fun h b hb => List.mem_flatMap.2 ⟨c, h, hb⟩⟩
  rcases Nat.lt_or_ge c.toNat 0x80 with hn | hn
  · have hall : ∀ n < 0x80, UInt8.ofNat n ∈ Utf8.encode digits → Char.ofNat n ∈ digits := by
      decide +kernel
    rw [Utf8.encodeChar, if_pos hn] at h
    simpa using hall c.toNat hn (h List.mem_cons_self)
  · -- The last octet of a character that takes several continues a sequence.
    have hlast : UInt8.ofNat (0x80 + c.toNat % 64) ∈ Utf8.encodeChar c := by
      rw [Utf8.encodeChar, if_neg (Nat.not_lt.2 hn)]
      split_ifs <;> simp
    have hlt := lt_of_mem_encode_digits (h hlast)
    rw [UInt8.toNat_ofNat_of_lt' (show _ < 256 by omega)] at hlt
    omega

/-- A text is made of digits exactly if its octets are octets of digits. -/
theorem encode_subset_iff {cs : List Char} :
    Utf8.encode cs ⊆ Utf8.encode digits ↔ cs ⊆ digits := by
  induction cs with
  | nil => simp [Utf8.encode]
  | cons c cs ih =>
    rw [Utf8.encode_cons, List.append_subset, encodeChar_subset_iff, ih, List.cons_subset]

/-- Digits are one octet each. -/
theorem length_encode_of_subset {cs : List Char} (h : cs ⊆ digits) :
    (Utf8.encode cs).length = cs.length := by
  induction cs with
  | nil => rfl
  | cons c cs ih =>
    obtain ⟨hc, hcs⟩ := List.cons_subset.1 h
    obtain ⟨v, -, hoctet, -⟩ := exists_value_of_mem_digits c hc
    rw [Utf8.encode_cons, hoctet, List.length_append, ih hcs, List.length_singleton,
      List.length_cons, Nat.add_comm]

/-! ### Reading -/

theorem encode_cons (b : UInt8) (bs : Bytes) :
    encode (b :: bs) = digit (b.toNat / 16) :: digit (b.toNat % 16) :: encode bs := rfl

/-- The lower-case form of digits, one by one. -/
theorem lowerAfter_of_subset {cs : List Char} (before : List Char) (h : cs ⊆ digits) :
    LowerCase.lowerAfter before cs = cs.flatMap LowerCase.lowerChar := by
  induction cs generalizing before with
  | nil => rfl
  | cons c cs ih =>
    obtain ⟨hc, hcs⟩ := List.cons_subset.1 h
    obtain ⟨v, -, -, -, hsigma, -⟩ := exists_value_of_mem_digits c hc
    rw [LowerCase.lowerAfter, if_neg hsigma, ih _ hcs, List.flatMap_cons]

/-- **Digits are read.** What an even count of them writes is written again as the same digits in
lower case. -/
theorem exists_decodeFrom_of_subset {cs : List Char} (index : ℕ) (h : cs ⊆ digits)
    (heven : cs.length % 2 = 0) :
    ∃ bs, decodeFrom index (Utf8.encode cs) = .ok bs ∧ cs.length = 2 * bs.length ∧
      encode bs = cs.flatMap LowerCase.lowerChar := by
  induction cs using List.twoStepInduction generalizing index with
  | nil => exact ⟨[], rfl, rfl, rfl⟩
  | singleton c => simp at heven
  | cons_cons c d cs ih _ =>
    obtain ⟨hc, htail⟩ := List.cons_subset.1 h
    obtain ⟨hd, hcs⟩ := List.cons_subset.1 htail
    obtain ⟨high, hhigh, hcoctet, hcvalue, -, hclower⟩ := exists_value_of_mem_digits c hc
    obtain ⟨low, hlow, hdoctet, hdvalue, -, hdlower⟩ := exists_value_of_mem_digits d hd
    have hrest : cs.length % 2 = 0 := by
      simp only [List.length_cons] at heven
      omega
    obtain ⟨bs, hbs, hlength, htext⟩ := ih (index + 2) hcs hrest
    have hoctets : Utf8.encode (c :: d :: cs) =
        UInt8.ofNat c.toNat :: UInt8.ofNat d.toNat :: Utf8.encode cs := by
      rw [Utf8.encode_cons, Utf8.encode_cons, hcoctet, hdoctet]
      rfl
    have hvalue : (UInt8.ofNat (high * 16 + low)).toNat = high * 16 + low :=
      UInt8.toNat_ofNat_of_lt' (show _ < 256 by omega)
    have hdiv : (high * 16 + low) / 16 = high := by omega
    have hmod : (high * 16 + low) % 16 = low := by omega
    refine ⟨UInt8.ofNat (high * 16 + low) :: bs, ?_, ?_, ?_⟩
    · simp only [hoctets, decodeFrom, hcvalue, hdvalue, hbs]
    · simp only [List.length_cons, hlength]
      omega
    · rw [encode_cons, htext, hvalue, hdiv, hmod, List.flatMap_cons, List.flatMap_cons, hclower,
        hdlower]
      rfl

/-- **The first stray is reported**, whichever place in its pair it has. -/
theorem decodeFrom_of_stray {good rest : Bytes} {b : UInt8} (index : ℕ)
    (hgood : good ⊆ Utf8.encode digits) (hb : b ∉ Utf8.encode digits)
    (heven : (good ++ b :: rest).length % 2 = 0) :
    decodeFrom index (good ++ b :: rest) = .error (.notDigit b (index + good.length)) := by
  induction good using List.twoStepInduction generalizing index with
  | nil =>
    cases rest with
    | nil => simp at heven
    | cons c rest => simp [decodeFrom, value?_eq_none hb]
  | singleton c =>
    obtain ⟨v, hv⟩ := exists_value_iff.2 (hgood List.mem_cons_self)
    simp [decodeFrom, hv, value?_eq_none hb]
  | cons_cons c d good ih _ =>
    obtain ⟨hc, htail⟩ := List.cons_subset.1 hgood
    obtain ⟨hd, hgood'⟩ := List.cons_subset.1 htail
    obtain ⟨high, hhigh⟩ := exists_value_iff.2 hc
    obtain ⟨low, hlow⟩ := exists_value_iff.2 hd
    have hlength : (good ++ b :: rest).length % 2 = 0 := by
      simp only [List.cons_append, List.length_cons] at heven
      omega
    have hrest := ih (index + 2) hgood' hlength
    simp only [List.cons_append, decodeFrom, hhigh, hlow, hrest, List.length_cons]
    congr 2
    omega

/-! ### Strays -/

/-- The places of the octets that are no digits. -/
def strays (bs : Bytes) : Set ℕ := {i | ∃ b, bs[i]? = some b ∧ b ∉ Utf8.encode digits}

/-- Whether `b`, at place `i`, is the first octet that is no digit. -/
def FirstStray (bs : Bytes) (b : UInt8) (i : ℕ) : Prop := IsLeast (strays bs) i ∧ bs[i]? = some b

theorem firstStray_iff {bs : Bytes} {b : UInt8} {i : ℕ} :
    FirstStray bs b i ↔ ∃ good rest, bs = good ++ b :: rest ∧ good.length = i ∧
      good ⊆ Utf8.encode digits ∧ b ∉ Utf8.encode digits := by
  constructor
  · rintro ⟨⟨⟨c, hc, hstray⟩, hleast⟩, hb⟩
    obtain rfl : c = b := Option.some.inj (hc.symm.trans hb)
    obtain ⟨hi, rfl⟩ := List.getElem?_eq_some_iff.1 hb
    refine ⟨bs.take i, bs.drop (i + 1), ?_, List.length_take_of_le hi.le, fun d hd => ?_, hstray⟩
    · rw [← List.drop_eq_getElem_cons hi, List.take_append_drop]
    · obtain ⟨j, hj, rfl⟩ := List.getElem_of_mem hd
      by_contra hother
      have hle : i ≤ j := hleast ⟨_, List.getElem?_eq_getElem (by simp at hj; omega), by
        rwa [List.getElem_take] at hother⟩
      simp at hj
      omega
  · rintro ⟨good, rest, rfl, rfl, hgood, hb⟩
    refine ⟨⟨⟨b, by simp, hb⟩, fun j ⟨c, hc, hstray⟩ => ?_⟩, by simp⟩
    by_contra hlt
    rw [List.getElem?_append_left (Nat.not_le.1 hlt)] at hc
    exact hstray (hgood (List.mem_of_getElem? hc))

/-- Octets are all of digits, or there is a first that is not. -/
theorem subset_or_exists_firstStray (bs : Bytes) :
    bs ⊆ Utf8.encode digits ∨ ∃ b i, FirstStray bs b i := by
  by_cases hstrays : (strays bs).Nonempty
  · obtain ⟨b, hb, hstray⟩ := (isLeast_csInf hstrays).1
    exact .inr ⟨b, _, isLeast_csInf hstrays, hb⟩
  · refine .inl fun b hb => ?_
    obtain ⟨i, hi⟩ := List.getElem?_of_mem hb
    by_contra hstray
    exact hstrays ⟨i, b, hi, hstray⟩

/-! ### Texts -/

theorem ofText_of_odd {s : String} (h : (Utf8.encode s.toList).length % 2 = 1) :
    ofText s = .error .oddLength := if_pos h

theorem ofText_of_firstStray {s : String} {b : UInt8} {i : ℕ}
    (heven : (Utf8.encode s.toList).length % 2 = 0) (h : FirstStray (Utf8.encode s.toList) b i) :
    ofText s = .error (.notDigit b i) := by
  obtain ⟨good, rest, hoctets, rfl, hgood, hb⟩ := firstStray_iff.1 h
  rw [hoctets] at heven
  rw [ofText, hoctets, decode, if_neg (by omega), decodeFrom_of_stray 0 hgood hb heven,
    Nat.zero_add]

theorem exists_ofText_of_subset {s : String} (h : s.toList ⊆ digits)
    (heven : s.length % 2 = 0) :
    ∃ bs, ofText s = .ok bs ∧ s.length = 2 * bs.length ∧ text bs = lowerCase s := by
  rw [← String.length_toList] at heven ⊢
  obtain ⟨bs, hbs, hlength, htext⟩ := exists_decodeFrom_of_subset 0 h heven
  have hoctets := length_encode_of_subset h
  refine ⟨bs, ?_, hlength, ?_⟩
  · rw [ofText, decode, if_neg (by omega), hbs]
  · rw [text, lowerCase, lowerAfter_of_subset [] h, htext]

/-! ### The order of texts -/

/-- Digits ascend with their values. -/
theorem digit_lt_digit_iff {m n : ℕ} (hm : m < 16) (hn : n < 16) :
    (digit m < digit n ↔ m < n) ∧ (digit m = digit n ↔ m = n) := by
  have hall : ∀ m < 16, ∀ n < 16,
      (digit m < digit n ↔ m < n) ∧ (digit m = digit n ↔ m = n) := by decide
  exact hall m hm n hn

/-- Texts are ordered as the octets that they write. -/
theorem encode_lt_encode_iff {l r : Bytes} : encode l < encode r ↔ l < r := by
  induction l generalizing r with
  | nil =>
    cases r with
    | nil => simp [encode]
    | cons b r => simp [encode]
  | cons a l ih =>
    cases r with
    | nil => simp [encode]
    | cons b r =>
      have ha : a.toNat < 256 := a.toNat_lt
      have hb : b.toNat < 256 := b.toNat_lt
      obtain ⟨hhighlt, hhigheq⟩ :=
        digit_lt_digit_iff (m := a.toNat / 16) (n := b.toNat / 16) (by omega) (by omega)
      obtain ⟨hlowlt, hloweq⟩ :=
        digit_lt_digit_iff (m := a.toNat % 16) (n := b.toNat % 16) (by omega) (by omega)
      rw [encode_cons, encode_cons, List.cons_lt_cons_iff, List.cons_lt_cons_iff,
        List.cons_lt_cons_iff, ih, hhighlt, hhigheq, hlowlt, hloweq, UInt8.lt_iff_toNat_lt,
        ← UInt8.toNat_inj]
      -- The two digits decide as the octet does, whatever follows.
      by_cases hrest : l < r
      · simp only [hrest, and_true]
        omega
      · simp only [hrest, and_false, or_false]
        omega

end Hex

/-! ### Identifiers -/

namespace ByteVec

variable {n : ℕ} {s : String}

theorem ofHex_of_odd (h : (Utf8.encode s.toList).length % 2 = 1) :
    ofHex n s = .error (.hex .oddLength) := by
  simp only [ofHex, Hex.ofText_of_odd h]

-- Two characters, but three octets.
example : ofHex 32 "aé" = .error (.hex .oddLength) := by decide

theorem ofHex_of_firstStray {b : UInt8} {i : ℕ} (heven : (Utf8.encode s.toList).length % 2 = 0)
    (h : Hex.FirstStray (Utf8.encode s.toList) b i) :
    ofHex n s = .error (.hex (.notDigit b i)) := by
  simp only [ofHex, Hex.ofText_of_firstStray heven h]

theorem ofHex_of_length_ne {m : ℕ} (h : s.toList ⊆ Hex.digits)
    (hoctets : (Utf8.encode s.toList).length = 2 * m) (hne : m ≠ n) :
    ofHex n s = .error (.length n m) := by
  rw [Hex.length_encode_of_subset h, String.length_toList] at hoctets
  obtain ⟨bs, hbs, hbslength, -⟩ := Hex.exists_ofText_of_subset h (by omega)
  obtain rfl : bs.length = m := by omega
  simp only [ofHex, hbs, ofBytes?, dif_neg hne]

theorem exists_ofHex_of_length_eq (h : s.toList ⊆ Hex.digits) (hlength : s.length = 2 * n) :
    ∃ v, ofHex n s = .ok v ∧ v.toHex = lowerCase s := by
  obtain ⟨bs, hbs, hbslength, htext⟩ := Hex.exists_ofText_of_subset h (by omega)
  have hn : bs.length = n := by omega
  exact ⟨⟨bs, hn⟩, by simp only [ofHex, hbs, ofBytes?, dif_pos hn], htext⟩

/-- How reading a text as the name of `n` octets ends, and what the text is like in each case. -/
inductive Reading (n : ℕ) (s : String) : Except IdentifierFault (ByteVec n) → Prop
  | odd (h : (Utf8.encode s.toList).length % 2 = 1) : Reading n s (.error (.hex .oddLength))
  | stray {b : UInt8} {i : ℕ} (heven : (Utf8.encode s.toList).length % 2 = 0)
      (h : Hex.FirstStray (Utf8.encode s.toList) b i) : Reading n s (.error (.hex (.notDigit b i)))
  | length {m : ℕ} (h : s.toList ⊆ Hex.digits)
      (hoctets : (Utf8.encode s.toList).length = 2 * m) (hne : m ≠ n) :
      Reading n s (.error (.length n m))
  | ok {v : ByteVec n} (h : s.toList ⊆ Hex.digits) (hlength : s.length = 2 * n)
      (htext : v.toHex = lowerCase s) : Reading n s (.ok v)

/-- Reading a text ends in one of these ways. -/
theorem reading_ofHex (n : ℕ) (s : String) : Reading n s (ofHex n s) := by
  rcases Nat.mod_two_eq_zero_or_one (Utf8.encode s.toList).length with heven | hodd
  · rcases Hex.subset_or_exists_firstStray (Utf8.encode s.toList) with hoctets | ⟨b, i, hstray⟩
    · have hdigits : s.toList ⊆ Hex.digits := Hex.encode_subset_iff.1 hoctets
      obtain ⟨m, hm⟩ := Nat.dvd_of_mod_eq_zero heven
      by_cases hn : m = n
      · have hlength : s.length = 2 * n := by
          rw [← String.length_toList, ← Hex.length_encode_of_subset hdigits, hm, hn]
        obtain ⟨v, hv, htext⟩ := exists_ofHex_of_length_eq hdigits hlength
        exact hv ▸ .ok hdigits hlength htext
      · exact ofHex_of_length_ne hdigits hm hn ▸ .length hdigits hm hn
    · exact ofHex_of_firstStray (n := n) heven hstray ▸ .stray heven hstray
  · exact ofHex_of_odd (n := n) hodd ▸ .odd hodd

theorem toHex_lt_toHex_iff {v w : ByteVec n} : v.toHex < w.toHex ↔ v < w := by
  rw [String.lt_iff_toList_lt, toHex, toHex, Hex.text, Hex.text, String.toList_ofList,
    String.toList_ofList, Hex.encode_lt_encode_iff, lt_iff]

end ByteVec

/-- What it is for identifiers of `n` octets to be read from hexadecimal text, and printed,
exactly. -/
structure ExactText (n : ℕ) {α : Type} [LT α] (read : String → Except IdentifierFault α)
    (print : α → String) : Prop where
  /-- What is read is a row of `2 * n` digits of either case. -/
  exists_ok_iff : ∀ s, (∃ v, read s = .ok v) ↔ s.length = 2 * n ∧ s.toList ⊆ Hex.digits
  /-- What was read is printed in lower case. -/
  print_of_ok : ∀ s v, read s = .ok v → print v = lowerCase s
  read_print : ∀ v, read (print v) = .ok v
  odd_iff : ∀ s, read s = .error (.hex .oddLength) ↔ (Utf8.encode s.toList).length % 2 = 1
  /-- In an even count of octets the first that is no digit is reported. -/
  notDigit_iff : ∀ s b i, read s = .error (.hex (.notDigit b i)) ↔
    (Utf8.encode s.toList).length % 2 = 0 ∧ Hex.FirstStray (Utf8.encode s.toList) b i
  /-- Where all are digits, half the count of octets is reported if it is not `n`. -/
  length_iff : ∀ s expected actual, read s = .error (.length expected actual) ↔
    s.toList ⊆ Hex.digits ∧ (Utf8.encode s.toList).length = 2 * actual ∧ expected = n ∧ actual ≠ n
  lt_iff : ∀ v w, print v < print w ↔ v < w

theorem ByteVec.exactText (n : ℕ) : ExactText n (ofHex n) toHex where
  exists_ok_iff s := by
    refine ⟨fun ⟨v, hv⟩ => ?_, fun ⟨hlength, hdigits⟩ => ?_⟩
    · cases hv ▸ reading_ofHex n s with
      | ok hdigits hlength => exact ⟨hlength, hdigits⟩
    · obtain ⟨v, hv, -⟩ := exists_ofHex_of_length_eq hdigits hlength
      exact ⟨v, hv⟩
  print_of_ok s v hv := by
    cases hv ▸ reading_ofHex n s with
    | ok _ _ htext => exact htext
  read_print v := ofHex_toHex v
  odd_iff s := by
    refine ⟨fun hs => ?_, ofHex_of_odd⟩
    cases hs ▸ reading_ofHex n s with
    | odd hodd => exact hodd
  notDigit_iff s b i := by
    refine ⟨fun hs => ?_, fun ⟨heven, hstray⟩ => ofHex_of_firstStray heven hstray⟩
    cases hs ▸ reading_ofHex n s with
    | stray heven hstray => exact ⟨heven, hstray⟩
  length_iff s expected actual := by
    constructor
    · intro hs
      cases hs ▸ reading_ofHex n s with
      | length hdigits hlength hne => exact ⟨hdigits, hlength, rfl, hne⟩
    · rintro ⟨hdigits, hoctets, rfl, hne⟩
      exact ofHex_of_length_ne hdigits hoctets hne
  lt_iff _ _ := toHex_lt_toHex_iff

/-- What is exact for some octets is exact for what they stand for one by one, in the same order. -/
theorem ExactText.map {n : ℕ} {α β : Type} [LT α] [LT β]
    {read : String → Except IdentifierFault α} {print : α → String} (h : ExactText n read print)
    {f : α → β} {print' : β → String} (hf : Function.Surjective f)
    (hprint : ∀ v, print' (f v) = print v) (hlt : ∀ v w, f v < f w ↔ v < w) :
    ExactText n (fun s => (read s).map f) print' := by
  have hok : ∀ s w, (read s).map f = .ok w ↔ ∃ v, read s = .ok v ∧ f v = w := by
    intro s w
    cases read s <;> simp [Except.map]
  have herror : ∀ s fault, (read s).map f = .error fault ↔ read s = .error fault := by
    intro s fault
    cases read s <;> simp [Except.map]
  refine ⟨fun s => ?_, fun s w hw => ?_, hf.forall.2 fun v => ?_, fun s => ?_, fun s b i => ?_,
    fun s expected actual => ?_, hf.forall.2 fun v => hf.forall.2 fun w => ?_⟩
  · rw [← h.exists_ok_iff]
    simp [hok]
  · obtain ⟨v, hv, rfl⟩ := (hok s w).1 hw
    rw [hprint, h.print_of_ok s v hv]
  · exact (hok _ _).2 ⟨v, (hprint v).symm ▸ h.read_print v, rfl⟩
  · rw [herror, h.odd_iff]
  · rw [herror, h.notDigit_iff]
  · rw [herror, h.length_iff]
  · rw [hprint, hprint, h.lt_iff, hlt]

/-- **Identifiers are read exactly.** Of all texts, those that name a hash, or an account, are the
rows of 64 hexadecimal digits of either case. What is read is printed as the same digits in lower
case, and that text names it again. Any other text is refused for an odd count of octets, else for
the first octet that is no digit, else for its length, and the refusal says which. Hashes, and
accounts, are ordered as their texts. -/
theorem identifiers_are_read_exactly :
    ExactText 32 Hash256.ofHex Hash256.toHex ∧ ExactText 32 AccountId.ofHex AccountId.toHex := by
  have hbytes := ByteVec.exactText 32
  constructor
  · exact hbytes.map (fun h => ⟨h.bytes, rfl⟩) (fun _ => rfl) fun _ _ => Iff.rfl
  · exact hbytes.map (fun a => ⟨a.key.bytes, rfl⟩) (fun _ => rfl) fun _ _ => Iff.rfl

end NextLedger
