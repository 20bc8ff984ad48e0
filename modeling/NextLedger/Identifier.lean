import NextLedger.Bytes.Hex

/-!
# Identifiers

Hashes and accounts are named by 32 octets, which people see as 64 hexadecimal digits.
-/

namespace NextLedger

/-- Why a text does not name an identifier. -/
inductive IdentifierFault
  | hex (fault : Hex.Fault)
  | length (expected actual : Nat)
deriving DecidableEq

namespace IdentifierFault

/-- The fault as a sentence. -/
def message : IdentifierFault → String
  | .hex fault => "invalid hex encoding: " ++ fault.message
  | .length expected actual => s!"invalid length: expected {expected} bytes, got {actual}"

end IdentifierFault

namespace ByteVec

/-- The hexadecimal text of a byte string of known length. -/
def toHex {n : Nat} (v : ByteVec n) : String := Hex.text v.toBytes

/-- The hexadecimal text of the first four octets, for people to tell identifiers apart. -/
def short {n : Nat} (v : ByteVec n) : String := Hex.text (v.toBytes.take 4)

/-- The byte string of length `n` that a hexadecimal text writes. Faults in the digits are reported
before a wrong length. -/
def ofHex (n : Nat) (s : String) : Except IdentifierFault (ByteVec n) :=
  match Hex.ofText s with
  | .error fault => .error (.hex fault)
  | .ok bs =>
    match ofBytes? n bs with
    | none => .error (.length n bs.length)
    | some v => .ok v

end ByteVec

end NextLedger
