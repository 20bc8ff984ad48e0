import NextLedger.Identifier

/-!
# Hexadecimal texts

Two digits are written for each octet. Every digit is a character of one octet, so the octets of
the text are the digits one by one, and reading them two by two gives back what was written. The
length is then right as well, so an identifier is the one that its own text names.
-/

namespace NextLedger

namespace Hex

/-- The octet of a digit, which has the value of the digit. -/
theorem encodeChar_digit {n : Nat} (h : n < 16) :
    Utf8.encodeChar (digit n) = [UInt8.ofNat (digit n).toNat] ∧
      value? (UInt8.ofNat (digit n).toNat) = some n := by
  have hall : ∀ n < 16, Utf8.encodeChar (digit n) = [UInt8.ofNat (digit n).toNat] ∧
      value? (UInt8.ofNat (digit n).toNat) = some n := by decide
  exact hall n h

/-- The octets of the two digits of an octet, and the octets of the digits of the others. -/
theorem encode_encode_cons (b : UInt8) (bs : Bytes) :
    Utf8.encode (encode (b :: bs)) =
      UInt8.ofNat (digit (b.toNat / 16)).toNat :: UInt8.ofNat (digit (b.toNat % 16)).toNat ::
        Utf8.encode (encode bs) := by
  have hb : b.toNat < 256 := b.toNat_lt
  have hhigh := (encodeChar_digit (n := b.toNat / 16) (by omega)).1
  have hlow := (encodeChar_digit (n := b.toNat % 16) (by omega)).1
  simp only [encode, Utf8.encode, List.flatMap_cons, hhigh, hlow, List.cons_append, List.nil_append]

@[simp] theorem length_encode_encode (bs : Bytes) :
    (Utf8.encode (encode bs)).length = 2 * bs.length := by
  induction bs with
  | nil => rfl
  | cons b bs ih => rw [encode_encode_cons]; simp only [List.length_cons, ih]; omega

theorem decodeFrom_encode (index : Nat) (bs : Bytes) :
    decodeFrom index (Utf8.encode (encode bs)) = .ok bs := by
  induction bs generalizing index with
  | nil => rfl
  | cons b bs ih =>
    have hb : b.toNat < 256 := b.toNat_lt
    have hhigh := (encodeChar_digit (n := b.toNat / 16) (by omega)).2
    have hlow := (encodeChar_digit (n := b.toNat % 16) (by omega)).2
    have hvalue : UInt8.ofNat (b.toNat / 16 * 16 + b.toNat % 16) = b := by
      rw [Nat.div_add_mod', UInt8.ofNat_toNat]
    simp only [encode_encode_cons, decodeFrom, hhigh, hlow, ih, hvalue]

/-- **Reading back.** The digits of octets write these octets. -/
theorem ofText_text (bs : Bytes) : ofText (text bs) = .ok bs := by
  have heven : (Utf8.encode (encode bs)).length % 2 ≠ 1 := by rw [length_encode_encode]; omega
  rw [ofText, text, String.toList_ofList, decode, if_neg heven, decodeFrom_encode]

end Hex

namespace ByteVec

/-- The text of a byte string of known length names this byte string. -/
theorem ofHex_toHex {n : Nat} (v : ByteVec n) : ofHex n v.toHex = .ok v := by
  simp only [ofHex, toHex, Hex.ofText_text, ofBytes?_toBytes]

end ByteVec

end NextLedger
