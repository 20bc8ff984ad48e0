import NextLedger.Bytes
import NextLedger.Text.Utf8

/-!
# Hexadecimal text

Octets are written as two lower-case digits each. Reading takes digits of either case, two by two,
and reports the first fault: an odd count of octets in the text, else the first octet that is no
digit, with its index.
-/

namespace NextLedger

namespace Hex

/-- Why a text is not hexadecimal. -/
inductive Fault
  | oddLength
  /-- The octet `byte`, the first that is no digit, stands at `index`. -/
  | notDigit (byte : UInt8) (index : Nat)
deriving DecidableEq

/-- The digit for a number below sixteen. -/
def digit (n : Nat) : Char :=
  if n < 10 then Char.ofNat (0x30 + n) else Char.ofNat (0x57 + n)

/-- The digits of octets, lower-case. -/
def encode (bs : Bytes) : List Char :=
  bs.flatMap fun b => [digit (b.toNat / 16), digit (b.toNat % 16)]

/-- The hexadecimal text of octets. -/
def text (bs : Bytes) : String := String.ofList (encode bs)

/-- The value of an octet as a digit of either case. -/
def value? (b : UInt8) : Option Nat :=
  if 0x30 ≤ b && b ≤ 0x39 then some (b.toNat - 0x30)
  else if 0x61 ≤ b && b ≤ 0x66 then some (b.toNat - 0x57)
  else if 0x41 ≤ b && b ≤ 0x46 then some (b.toNat - 0x37)
  else none

/-- Reads digits two by two, the first of them at `index`. -/
def decodeFrom (index : Nat) : Bytes → Except Fault Bytes
  | [] => .ok []
  | [_] => .error .oddLength
  | hi :: lo :: rest =>
    match value? hi with
    | none => .error (.notDigit hi index)
    | some h =>
      match value? lo with
      | none => .error (.notDigit lo (index + 1))
      | some l =>
        match decodeFrom (index + 2) rest with
        | .error fault => .error fault
        | .ok bs => .ok (UInt8.ofNat (h * 16 + l) :: bs)

/-- The octets that hexadecimal digits write. An odd count of them is reported before anything
else. -/
def decode (bs : Bytes) : Except Fault Bytes :=
  if bs.length % 2 = 1 then .error .oddLength else decodeFrom 0 bs

/-- The octets that a hexadecimal text writes. -/
def ofText (s : String) : Except Fault Bytes := decode (Utf8.encode s.toList)

/-- An octet as a quoted character U+00XX. Quotes of this kind, the backslash and what does not
print are escaped. -/
def quotedByte (b : UInt8) : String :=
  let body :=
    if b = 0 then "\\0"
    else if b = 0x09 then "\\t"
    else if b = 0x0A then "\\n"
    else if b = 0x0D then "\\r"
    else if b = 0x27 then "\\'"
    else if b = 0x5C then "\\\\"
    else if b < 0x20 || (0x7F ≤ b && b ≤ 0xA0) || b = 0xAD then
      let digits := encode [b]
      let digits := if b < 0x10 then digits.drop 1 else digits
      "\\u\x7b" ++ String.ofList digits ++ "\x7d"
    else String.singleton (Char.ofNat b.toNat)
  "'" ++ body ++ "'"

/-- The fault as a sentence. -/
def Fault.message : Fault → String
  | .oddLength => "Odd number of digits"
  | .notDigit byte index => s!"Invalid character {quotedByte byte} at position {index}"

end Hex

end NextLedger
