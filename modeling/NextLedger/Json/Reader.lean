import NextLedger.Binary64
import NextLedger.Json
import NextLedger.Text.Utf8

/-!
# Reading JSON

A reader takes a value of a known type off the front of a text. It works from left to right and the
first **problem** that it meets decides: the text ends too early, it is not JSON, or it is JSON of
the wrong shape. What a reader does not ask for is skipped, and is checked to be JSON only.

The readers of numbers and texts are here; those of lists and records are in `Json.Form`.
-/

namespace NextLedger

namespace Json

/-- Why a text cannot be read. -/
inductive Problem
  /-- The text ends too early. -/
  | truncated
  /-- The text is not JSON. -/
  | malformed
  /-- The text is JSON of another shape. -/
  | mismatched
deriving DecidableEq

/-- Takes a value off the front of a text, and leaves the rest. -/
abbrev Reader (α : Type) := List Char → Except Problem (α × List Char)

/-- Reads a value and changes it. -/
def Reader.map {α β : Type} (g : α → β) (r : Reader α) : Reader β := fun s =>
  match r s with
  | .error problem => .error problem
  | .ok (a, rest) => .ok (g a, rest)

/-- Whether a character may stand between tokens. -/
def isBlank (c : Char) : Bool := c == ' ' || c == '\t' || c == '\n' || c == '\r'

/-- The text after the blanks at its front. -/
def skipBlanks (s : List Char) : List Char := s.dropWhile isBlank

/-- Reads exactly the characters of a word. -/
def word : List Char → Reader Unit
  | [], s => .ok ((), s)
  | _ :: _, [] => .error .truncated
  | c :: cs, d :: s => if c = d then word cs s else .error .malformed

/-! ### Numbers -/

/-- A number as it is written. -/
inductive Number
  | int (n : Int)
  /-- A fraction, an exponent, a zero with a sign, or an integer that is not one of 64 bits. -/
  | other
deriving DecidableEq

/-- The value of a digit. -/
def digitValue (c : Char) : Nat := c.toNat - 0x30

/-- Appends digits to a significand as long as it stays within 64 bits. The second component is the
number of digits that no longer fit. -/
def accumulate : (significand : Nat) → List Char → Nat × Nat
  | significand, [] => (significand, 0)
  | significand, c :: cs =>
    let next := significand * 10 + digitValue c
    if next < UInt64.size then accumulate next cs else (significand, cs.length + 1)

/-- Whether a significand times a power of ten is beyond the largest double. Both factors are
rounded to doubles first. -/
def isHuge (significand : Nat) (exponent : Int) : Bool :=
  decide (significand ≠ 0) && (decide (308 < exponent) ||
    (decide (0 ≤ exponent) && decide (Binary64.overflow ≤
      Binary64.roundNat significand * Binary64.roundNat (Nat.pow 10 exponent.toNat))))

/-- A number that is no integer, unless it is too large. -/
def finish (significand : Nat) (exponent : Int) : Reader Number := fun s =>
  if isHuge significand exponent then .error .malformed else .ok (.other, s)

/-- What follows the letter of an exponent. -/
def exponentPart (significand : Nat) (exponent : Int) : Reader Number := fun s =>
  let (negative, s) :=
    match s with
    | '+' :: s => (false, s)
    | '-' :: s => (true, s)
    | s => (false, s)
  match s with
  | [] => .error .truncated
  | c :: _ =>
    if c.isDigit then
      let value := (s.takeWhile Char.isDigit).foldl (fun n c => n * 10 + digitValue c) 0
      let rest := s.dropWhile Char.isDigit
      if 0x80000000 ≤ value then
        if significand ≠ 0 && !negative then .error .malformed else .ok (.other, rest)
      else finish significand (if negative then exponent - value else exponent + value) rest
    else .error .malformed

/-- What follows the digits of a number that is no integer. -/
def afterDigits (significand : Nat) (exponent : Int) : Reader Number
  | 'e' :: s => exponentPart significand exponent s
  | 'E' :: s => exponentPart significand exponent s
  | s => finish significand exponent s

/-- What follows a decimal point. -/
def fractionPart (significand : Nat) (exponent : Int) : Reader Number := fun s =>
  match s with
  | [] => .error .truncated
  | c :: _ =>
    if c.isDigit then
      let digits := s.takeWhile Char.isDigit
      let (significand, lost) := accumulate significand digits
      afterDigits significand (exponent - (digits.length - lost : Nat)) (s.dropWhile Char.isDigit)
    else .error .malformed

/-- A number without its sign. -/
def unsigned (negative : Bool) : Reader Number := fun s =>
  let digits := s.takeWhile Char.isDigit
  let rest := s.dropWhile Char.isDigit
  match digits with
  | [] => if s.isEmpty then .error .truncated else .error .malformed
  | '0' :: _ :: _ => .error .malformed
  | _ =>
    let (significand, lost) := accumulate 0 digits
    match rest with
    | '.' :: rest => fractionPart significand lost rest
    | 'e' :: rest => exponentPart significand lost rest
    | 'E' :: rest => exponentPart significand lost rest
    | rest =>
      if lost ≠ 0 then finish significand lost rest
      else if !negative then .ok (.int significand, rest)
      else if significand = 0 ∨ 0x8000000000000000 < significand then .ok (.other, rest)
      else .ok (.int (-significand), rest)

/-- A number, whose first character is a minus sign or a digit. -/
def number : Reader Number
  | '-' :: s => unsigned true s
  | s => unsigned false s

/-! ### Texts -/

/-- The value of a hexadecimal digit. -/
def hexValue? (c : Char) : Option Nat :=
  if c.isDigit then some (c.toNat - 0x30)
  else if 'a' ≤ c && c ≤ 'f' then some (c.toNat - 0x57)
  else if 'A' ≤ c && c ≤ 'F' then some (c.toNat - 0x37)
  else none

/-- Four hexadecimal digits. Fewer than four octets of text are too few. -/
def hex4 : Reader Nat
  | a :: b :: c :: d :: s =>
    match hexValue? a, hexValue? b, hexValue? c, hexValue? d with
    | some a, some b, some c, some d => .ok (((a * 16 + b) * 16 + c) * 16 + d, s)
    | _, _, _, _ => .error .malformed
  | s => if (Utf8.encode s).length < 4 then .error .truncated else .error .malformed

/-- The second half of a character that is written as two units, given the first. -/
def secondUnit (first : Nat) : Reader Char
  | [] => .error .truncated
  | ['\\'] => .error .truncated
  | '\\' :: 'u' :: s => do
    let (second, s) ← hex4 s
    if 0xDC00 ≤ second ∧ second ≤ 0xDFFF then
      .ok (Char.ofNat (0x10000 + (first - 0xD800) * 0x400 + (second - 0xDC00)), s)
    else .error .malformed
  | _ => .error .malformed

/-- What follows the `u` of an escape. -/
def unicodeEscape : Reader Char := fun s => do
  let (unit, s) ← hex4 s
  if 0xDC00 ≤ unit ∧ unit ≤ 0xDFFF then .error .malformed
  else if 0xD800 ≤ unit ∧ unit ≤ 0xDBFF then secondUnit unit s
  else .ok (Char.ofNat unit, s)

/-- What follows a backslash. -/
def escape : Reader Char
  | [] => .error .truncated
  | '"' :: s => .ok ('"', s)
  | '\\' :: s => .ok ('\\', s)
  | '/' :: s => .ok ('/', s)
  | 'b' :: s => .ok (Char.ofNat 0x08, s)
  | 'f' :: s => .ok (Char.ofNat 0x0C, s)
  | 'n' :: s => .ok ('\n', s)
  | 'r' :: s => .ok ('\r', s)
  | 't' :: s => .ok ('\t', s)
  | 'u' :: s => unicodeEscape s
  | _ :: _ => .error .malformed

/-- The characters of a text and its closing quote, at most `fuel` characters. -/
def textBody : (fuel : Nat) → Reader (List Char)
  | 0, _ => .error .truncated
  | _ + 1, [] => .error .truncated
  | _ + 1, '"' :: s => .ok ([], s)
  | fuel + 1, '\\' :: s => do
    let (c, s) ← escape s
    let (cs, s) ← textBody fuel s
    return (c :: cs, s)
  | fuel + 1, c :: s =>
    if c.toNat < 0x20 then .error .malformed
    else do
      let (cs, s) ← textBody fuel s
      return (c :: cs, s)

/-- A text, after its opening quote. -/
def textTail : Reader String := fun s => do
  let (cs, s) ← textBody (s.length + 1) s
  return (String.ofList cs, s)

/-! ### Values of the wrong shape -/

/-- What to say of a value that is not of the shape asked for. Lists and records are not looked
into; numbers, texts and words are read to their end first. -/
def mismatch {α : Type} : Reader α := fun s =>
  match skipBlanks s with
  | [] => .error .truncated
  | 'n' :: s => do
    let _ ← word ['u', 'l', 'l'] s
    .error .mismatched
  | 't' :: s => do
    let _ ← word ['r', 'u', 'e'] s
    .error .mismatched
  | 'f' :: s => do
    let _ ← word ['a', 'l', 's', 'e'] s
    .error .mismatched
  | '"' :: s => do
    let _ ← textTail s
    .error .mismatched
  | '[' :: _ => .error .mismatched
  | '{' :: _ => .error .mismatched
  | c :: s =>
    if c = '-' || c.isDigit then do
      let _ ← number (c :: s)
      .error .mismatched
    else .error .malformed

/-- Any integer of 64 bits, signed or not. -/
def Reader.int : Reader Int := fun s =>
  match skipBlanks s with
  | [] => .error .truncated
  | c :: s =>
    if c = '-' || c.isDigit then do
      match ← number (c :: s) with
      | (.int n, s) => .ok (n, s)
      | (.other, _) => .error .mismatched
    else mismatch (c :: s)

/-- A text. -/
def Reader.text : Reader String := fun s =>
  match skipBlanks s with
  | '"' :: s => textTail s
  | s => mismatch s

/-- The word for nothing. -/
def Reader.nothing : Reader Unit := fun s =>
  match skipBlanks s with
  | 'n' :: s => word ['u', 'l', 'l'] s
  | s => mismatch s

/-- Reads a whole text. Only blanks may follow the value. -/
def readAll {α : Type} (r : Reader α) (s : String) : Except Problem α := do
  let (a, rest) ← r s.toList
  if (skipBlanks rest).isEmpty then .ok a else .error .malformed

end Json

end NextLedger
