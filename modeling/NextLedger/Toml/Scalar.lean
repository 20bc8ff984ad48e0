import NextLedger.Binary64
import NextLedger.Toml
import NextLedger.Toml.Text

/-!
# TOML numbers, truth values and times

Integers are signed numbers of 64 bits, in decimal or, without a sign, in base 16, 8 or 2. Digits
may be grouped by single underscores. A fraction must not be beyond the greatest double. A date must
be one of the calendar; a minute may have a leap second.
-/

namespace NextLedger

namespace Toml

/-- The digits at the front of a text, where an underscore may stand between two of them. -/
def moreDigits (base : Nat) : List Char → List Nat × List Char
  | [] => ([], [])
  | '_' :: c :: s =>
    match digit? base c with
    | some d =>
      let (ds, rest) := moreDigits base s
      (d :: ds, rest)
    | none => ([], '_' :: c :: s)
  | c :: s =>
    match digit? base c with
    | some d =>
      let (ds, rest) := moreDigits base s
      (d :: ds, rest)
    | none => ([], c :: s)

/-- One or more digits. -/
def digits (base : Nat) : Reader (List Nat)
  | [] => none
  | c :: s => do
    let d ← digit? base c
    let (ds, rest) := moreDigits base s
    return (d :: ds, rest)

/-- The number that digits write. -/
def ofDigits (base : Nat) (ds : List Nat) : Nat := ds.foldl (fun n d => n * base + d) 0

/-- An integer, if it fits 64 bits. -/
def integer (n : Int) : Option Value :=
  if -0x8000000000000000 ≤ n ∧ n ≤ 0x7FFFFFFFFFFFFFFF then some (.integer n) else none

/-- An integer in another base, after its mark. -/
def based (base : Nat) : Reader Value := fun s => do
  let (ds, s) ← digits base s
  let v ← integer (ofDigits base ds)
  return (v, s)

/-! ### Decimal numbers -/

/-- The digits of a whole part. It has no zero before other digits. -/
def wholePart : Reader (List Nat)
  | '0' :: s => some ([0], s)
  | s => digits 10 s

/-- The exponent of a fraction, after its letter. -/
def exponent : Reader Int
  | '-' :: s => do
    let (ds, s) ← digits 10 s
    return (-(ofDigits 10 ds : Int), s)
  | '+' :: s => do
    let (ds, s) ← digits 10 s
    return ((ofDigits 10 ds : Int), s)
  | s => do
    let (ds, s) ← digits 10 s
    return ((ofDigits 10 ds : Int), s)

/-- Whether the number written by digits times a power of ten is beyond the greatest double. -/
def isHuge (ds : List Nat) (power : Int) : Bool :=
  let ds := ds.dropWhile (· == 0)
  let magnitude := ds.length + power
  if ds.isEmpty || magnitude < 300 then false
  else if 320 < magnitude then true
  else Binary64.overflow * Nat.pow 10 (-power).toNat ≤ ofDigits 10 ds * Nat.pow 10 power.toNat

/-- A fraction from the digits before and after the point and the exponent. -/
def fraction (negative : Bool) (whole decimals : List Nat) (power : Int) : Option Value :=
  if !negative && isHuge (whole ++ decimals) (power - decimals.length) then none
  else some .fraction

/-- The rest of a fraction after the digits of its decimal places. -/
def fractionTail (negative : Bool) (whole decimals : List Nat) : Reader Value := fun s =>
  match s with
  | 'e' :: s => do
    let (power, s) ← exponent s
    let v ← fraction negative whole decimals power
    return (v, s)
  | 'E' :: s => do
    let (power, s) ← exponent s
    let v ← fraction negative whole decimals power
    return (v, s)
  | s => do
    let v ← fraction negative whole decimals 0
    return (v, s)

/-- A number in decimal without its sign. -/
def unsigned (negative : Bool) : Reader Value
  | 'i' :: 'n' :: 'f' :: s => some (.fraction, s)
  | 'n' :: 'a' :: 'n' :: s => some (.fraction, s)
  | s => do
    let (whole, s) ← wholePart s
    match s with
    | '.' :: s =>
      let (decimals, s) ← digits 10 s
      fractionTail negative whole decimals s
    | 'e' :: s => fractionTail negative whole [] ('e' :: s)
    | 'E' :: s => fractionTail negative whole [] ('E' :: s)
    | s =>
      let n : Int := ofDigits 10 whole
      let v ← integer (if negative then -n else n)
      return (v, s)

/-- A number. -/
def number : Reader Value
  | '0' :: 'x' :: s => based 16 s
  | '0' :: 'o' :: s => based 8 s
  | '0' :: 'b' :: s => based 2 s
  | '-' :: s => unsigned true s
  | '+' :: s => unsigned false s
  | s => unsigned false s

/-! ### Dates and times -/

/-- A number of exactly `n` decimal digits, after the number `high`. -/
def fixedNumber : (n high : Nat) → Reader Nat
  | 0, high, s => some (high, s)
  | _ + 1, _, [] => none
  | n + 1, high, c :: s => do
    let d ← digit? 10 c
    fixedNumber n (high * 10 + d) s

/-- A number of two digits from `least` to `greatest`. -/
def twoDigits (least greatest : Nat) : Reader Unit := fun s => do
  let (n, s) ← fixedNumber 2 0 s
  if least ≤ n ∧ n ≤ greatest then some ((), s) else none

/-- Exactly one given character. -/
def mark (c : Char) : Reader Unit
  | [] => none
  | d :: s => if c = d then some ((), s) else none

/-- The number of days of a month. -/
def monthLength (year month : Nat) : Nat :=
  if month = 2 then
    (if year % 4 = 0 ∧ (year % 100 ≠ 0 ∨ year % 400 = 0) then 29 else 28)
  else if [4, 6, 9, 11].contains month then 30
  else 31

/-- A date of the calendar. -/
def date : Reader Unit := fun s => do
  let (year, s) ← fixedNumber 4 0 s
  let (_, s) ← mark '-' s
  let (month, s) ← fixedNumber 2 0 s
  let (_, s) ← mark '-' s
  let (day, s) ← fixedNumber 2 0 s
  if 1 ≤ month ∧ month ≤ 12 ∧ 1 ≤ day ∧ day ≤ monthLength year month then some ((), s) else none

/-- The fraction of a second, if there is one. -/
def secondFraction : Reader Unit
  | '.' :: s =>
    let rest := s.dropWhile Char.isDigit
    if rest.length = s.length then none else some ((), rest)
  | s => some ((), s)

/-- A time of the day. -/
def timeOfDay : Reader Unit := fun s => do
  let (_, s) ← twoDigits 0 23 s
  let (_, s) ← mark ':' s
  let (_, s) ← twoDigits 0 59 s
  let (_, s) ← mark ':' s
  let (_, s) ← twoDigits 0 60 s
  secondFraction s

/-- The distance in hours and minutes from universal time. -/
def distance : Reader Unit := fun s => do
  let (_, s) ← twoDigits 0 23 s
  let (_, s) ← mark ':' s
  twoDigits 0 59 s

/-- The offset from universal time, if there is one. -/
def offset : Reader Unit
  | 'Z' :: s => some ((), s)
  | 'z' :: s => some ((), s)
  | '+' :: s => distance s
  | '-' :: s => distance s
  | s => some ((), s)

/-- A time of the day and its offset after a date, if there is one. -/
def dayTime : Reader Unit
  | [] => some ((), [])
  | c :: s =>
    if c = 'T' ∨ c = 't' ∨ c = ' ' then
      match timeOfDay s with
      | some (_, s) => offset s
      | none => some ((), c :: s)
    else some ((), c :: s)

/-- A date, a time of the day, or both. -/
def time : Reader Value := fun s =>
  match date s with
  | some (_, s) => (dayTime s).map fun (_, s) => (.time, s)
  | none => (timeOfDay s).map fun (_, s) => (.time, s)

/-- A number, a truth value or a time. -/
def scalar : Reader Value
  | 't' :: 'r' :: 'u' :: 'e' :: s => some (.boolean, s)
  | 'f' :: 'a' :: 'l' :: 's' :: 'e' :: s => some (.boolean, s)
  | s => (time s).orElse fun _ => number s

end Toml

end NextLedger
