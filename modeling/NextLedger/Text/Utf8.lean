import NextLedger.Bytes

/-!
# UTF-8

The octets of a text and the text of octets. Reading is exact: a shortest-form violation, a
surrogate, a number beyond U+10FFFF, a stray continuation octet and an unfinished sequence are all
refused, and the refusal says where the bad sequence starts and how many octets of it were seen.
-/

namespace NextLedger

namespace Utf8

/-- Why octets are not UTF-8. Both causes carry the index at which the bad sequence starts. -/
inductive Fault
  /-- The octets end inside a sequence that was good so far. -/
  | incomplete (index : Nat)
  /-- The first `length` octets of a sequence rule it out. -/
  | invalid (length index : Nat)
deriving DecidableEq

namespace Fault

/-- The fault as a sentence. -/
def message : Fault → String
  | .incomplete index => s!"incomplete utf-8 byte sequence from index {index}"
  | .invalid length index => s!"invalid utf-8 sequence of {length} bytes from index {index}"

/-- The same fault in a text that starts `n` octets earlier. -/
def shift (n : Nat) : Fault → Fault
  | .incomplete index => .incomplete (index + n)
  | .invalid length index => .invalid length (index + n)

end Fault

/-- The octets of one character. -/
def encodeChar (c : Char) : Bytes :=
  let n := c.toNat
  if n < 0x80 then
    [UInt8.ofNat n]
  else if n < 0x800 then
    [UInt8.ofNat (0xC0 + n / 64), UInt8.ofNat (0x80 + n % 64)]
  else if n < 0x10000 then
    [UInt8.ofNat (0xE0 + n / 4096), UInt8.ofNat (0x80 + n / 64 % 64), UInt8.ofNat (0x80 + n % 64)]
  else
    [UInt8.ofNat (0xF0 + n / 262144), UInt8.ofNat (0x80 + n / 4096 % 64),
      UInt8.ofNat (0x80 + n / 64 % 64), UInt8.ofNat (0x80 + n % 64)]

/-- The octets of a text. -/
def encode (cs : List Char) : Bytes := cs.flatMap encodeChar

theorem encode_cons (c : Char) (cs : List Char) : encode (c :: cs) = encodeChar c ++ encode cs :=
  rfl

/-- Whether an octet may continue a sequence. -/
def isContinuation (b : UInt8) : Bool := 0x80 ≤ b && b ≤ 0xBF

/-- Whether `b` may follow the first octet `a` of a sequence of three: the bounds shut out longer
spellings of smaller numbers and the surrogates. -/
def isSecondOfThree (a b : UInt8) : Bool :=
  if a == 0xE0 then 0xA0 ≤ b && b ≤ 0xBF
  else if a == 0xED then 0x80 ≤ b && b ≤ 0x9F
  else isContinuation b

/-- Whether `b` may follow the first octet `a` of a sequence of four: the bounds shut out longer
spellings of smaller numbers and numbers beyond U+10FFFF. -/
def isSecondOfFour (a b : UInt8) : Bool :=
  if a == 0xF0 then 0x90 ≤ b && b ≤ 0xBF
  else if a == 0xF4 then 0x80 ≤ b && b ≤ 0x8F
  else isContinuation b

/-- The payload of a continuation octet. -/
def payload (b : UInt8) : Nat := b.toNat - 0x80

/-- The rest of a sequence of two, after its first octet. -/
def readTwo (a : UInt8) : Bytes → Except Fault (Char × Bytes)
  | [] => .error (.incomplete 0)
  | b :: rest =>
    if isContinuation b then .ok (Char.ofNat ((a.toNat - 0xC0) * 64 + payload b), rest)
    else .error (.invalid 1 0)

/-- The rest of a sequence of three, after its first octet. -/
def readThree (a : UInt8) : Bytes → Except Fault (Char × Bytes)
  | [] => .error (.incomplete 0)
  | b :: rest =>
    if isSecondOfThree a b then
      match rest with
      | [] => .error (.incomplete 0)
      | c :: rest =>
        if isContinuation c then
          .ok (Char.ofNat ((a.toNat - 0xE0) * 4096 + payload b * 64 + payload c), rest)
        else .error (.invalid 2 0)
    else .error (.invalid 1 0)

/-- The rest of a sequence of four, after its first octet. -/
def readFour (a : UInt8) : Bytes → Except Fault (Char × Bytes)
  | [] => .error (.incomplete 0)
  | b :: rest =>
    if isSecondOfFour a b then
      match rest with
      | [] => .error (.incomplete 0)
      | c :: rest =>
        if isContinuation c then
          match rest with
          | [] => .error (.incomplete 0)
          | d :: rest =>
            if isContinuation d then
              .ok (Char.ofNat ((a.toNat - 0xF0) * 262144 + payload b * 4096 + payload c * 64
                + payload d), rest)
            else .error (.invalid 3 0)
        else .error (.invalid 2 0)
    else .error (.invalid 1 0)

/-- One character, after its first octet `a`, and the octets after it. -/
def readChar (a : UInt8) (rest : Bytes) : Except Fault (Char × Bytes) :=
  if a < 0x80 then .ok (Char.ofNat a.toNat, rest)
  else if 0xC2 ≤ a && a ≤ 0xDF then readTwo a rest
  else if 0xE0 ≤ a && a ≤ 0xEF then readThree a rest
  else if 0xF0 ≤ a && a ≤ 0xF4 then readFour a rest
  else .error (.invalid 1 0)

/-- Reads at most `fuel` characters from octets that start `index` octets into the text. -/
def decodeFrom : (fuel index : Nat) → Bytes → Except Fault (List Char)
  | _, _, [] => .ok []
  | 0, _, _ :: _ => .ok []
  | fuel + 1, index, a :: rest =>
    match readChar a rest with
    | .error fault => .error (fault.shift index)
    | .ok (c, rest') =>
      match decodeFrom fuel (index + (encodeChar c).length) rest' with
      | .error fault => .error fault
      | .ok cs => .ok (c :: cs)

/-- The text that octets write, or the first fault in them. -/
def decode (bs : Bytes) : Except Fault (List Char) := decodeFrom bs.length 0 bs

end Utf8

end NextLedger
