/-!
# Binary floating point

Numbers of the IEEE 754 format binary64 as patterns of 64 bits: the correctly rounded quotient of
two naturals, and the two orders that comparing such numbers can mean. Numerical comparison takes
both zeros as equal and holds for no pair with a not-a-number; the **total order** ranks every
pattern, by sign first.
-/

namespace NextLedger

/-- A pattern of 64 bits, read as a number of the format binary64. -/
structure Binary64 where
  bits : UInt64
deriving DecidableEq

namespace Binary64

/-- Positive zero. -/
def zero : Binary64 := ⟨0⟩

/-- Positive infinity. -/
def infinity : Binary64 := ⟨0x7FF0000000000000⟩

/-- What an undefined operation gives: a quiet not-a-number whose sign bit is set. -/
def undefined : Binary64 := ⟨0xFFF8000000000000⟩

/-- Whether the sign bit is set. -/
def isNegative (x : Binary64) : Bool := decide (0x8000000000000000 ≤ x.bits.toNat)

/-- The pattern without its sign bit. -/
def magnitude (x : Binary64) : Nat := x.bits.toNat % 0x8000000000000000

/-- Whether a pattern is a not-a-number. -/
def isNaN (x : Binary64) : Bool := decide (infinity.magnitude < x.magnitude)

/-- Whether a pattern is a zero of either sign. -/
def isZero (x : Binary64) : Bool := x.magnitude == 0

/-- A number that grows with the value of a pattern which is not a not-a-number. -/
def scale (x : Binary64) : Int := if x.isNegative then -x.magnitude else x.magnitude

/-- Whether `x` is numerically below `y`. -/
def less (x y : Binary64) : Bool := !x.isNaN && !y.isNaN && decide (x.scale < y.scale)

/-- The rank of a pattern in the total order. -/
def rank (x : Binary64) : Int := if x.isNegative then -1 - x.magnitude else x.magnitude

/-- Which of two patterns comes first in the total order. -/
def totalOrder (x y : Binary64) : Ordering :=
  if x.rank < y.rank then .lt else if y.rank < x.rank then .gt else .eq

/-- The natural nearest to `n / d`, the even one of two. -/
def roundQuotient (n d : Nat) : Nat :=
  let q := n / d
  let r := n % d
  if 2 * r < d then q
  else if d < 2 * r then q + 1
  else q + q % 2

/-- The least natural that is rounded beyond the greatest number of the format: half a unit of its
last bit above it. -/
def overflow : Nat := (1 <<< 1024) - (1 <<< 970)

/-- The natural nearest to `n` among those with at most 53 significant bits, the one with an even
last bit of two. -/
def roundNat (n : Nat) : Nat :=
  let excess := n.log2 + 1 - 53
  roundQuotient n (1 <<< excess) <<< excess

/-- The number nearest to `n / d` for positive `n` and `d`, as long as it is neither so small nor so
large that the format has fewer digits for it. The significand `m` has 53 bits and the value is
`m * 2 ^ (e - 52)`. -/
def ofQuotient (n d : Nat) : Binary64 :=
  let k : Int := (n.log2 : Int) - d.log2
  let reaches : Bool := decide (d <<< k.toNat ≤ n <<< (-k).toNat)
  let e : Int := if reaches then k else k - 1
  let m := roundQuotient (n <<< (52 - e).toNat) (d <<< (e - 52).toNat)
  ⟨UInt64.ofNat ((e + 1022).toNat <<< 52 + m)⟩

/-- The quotient of two naturals, each rounded to the format first. Nothing over nothing is
undefined. -/
def quotient (n d : Nat) : Binary64 :=
  if n = 0 then (if d = 0 then undefined else zero)
  else if d = 0 then infinity
  else ofQuotient (roundNat n) (roundNat d)

end Binary64

end NextLedger
