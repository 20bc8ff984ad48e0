import NextLedger.Key
import NextLedger.Sha2.Sha512

/-!
# Ed25519

Signatures over the twisted Edwards curve `-x² + y² = 1 + d x² y²` modulo `2^255 - 19`. A point is
kept in extended coordinates `(X : Y : Z : T)` with `x = X / Z`, `y = Y / Z` and `x y = T / Z`, so
that the group law needs no division.

A verifier takes any key that is a point of the curve, small orders and a `y` beyond the modulus
included. It takes only scalars below the order of the base point, and it compares the octets of
`s B - k A` with those of the signature's point, so a signature has one accepted form.
-/

namespace NextLedger

namespace Ed25519

/-! ### The field -/

/-- The modulus of the field. -/
def modulus : Nat := (1 <<< 255) - 19

/-- The difference in the field. -/
def sub (a b : Nat) : Nat := (a + (modulus - b % modulus)) % modulus

/-- The product in the field. -/
def mul (a b : Nat) : Nat := a * b % modulus

/-- `a` to the power of the number formed by the lowest `bits` bits of `n`. -/
def pow (a : Nat) : (bits : Nat) → (n : Nat) → Nat
  | 0, _ => 1
  | bits + 1, n =>
    let half := pow a bits (n / 2)
    let square := mul half half
    if n % 2 = 1 then mul square a else square

/-- The inverse in the field, and zero for zero. -/
def inverse (a : Nat) : Nat := pow a 255 (modulus - 2)

/-- The coefficient of the curve. -/
def d : Nat := 37095705934669439343138083508754565189542113879843219016388785533085940283555

/-- A square root of minus one. -/
def sqrtMinusOne : Nat := pow 2 253 ((modulus - 1) / 4)

/-- The even square root of `u / v`, if there is one. -/
def sqrtRatio? (u v : Nat) : Option Nat :=
  let v3 := mul (mul v v) v
  let v7 := mul (mul v3 v3) v
  let r := mul (mul u v3) (pow (mul u v7) 252 ((modulus - 5) / 8))
  let check := mul v (mul r r)
  let root :=
    if check = u % modulus then some r
    else if check = sub 0 u then some (mul r sqrtMinusOne)
    else none
  root.map fun r => if r % 2 = 1 then modulus - r else r

/-! ### The curve -/

/-- A point in extended coordinates. -/
structure Point where
  x : Nat
  y : Nat
  z : Nat
  t : Nat
deriving DecidableEq

namespace Point

/-- The neutral point. -/
def neutral : Point := ⟨0, 1, 1, 0⟩

/-- The sum of two points. -/
def add (p q : Point) : Point :=
  let a := mul (sub p.y p.x) (sub q.y q.x)
  let b := mul (p.y + p.x) (q.y + q.x)
  let c := mul (mul p.t (2 * d)) q.t
  let e := mul p.z (2 * q.z)
  let f := sub b a
  let g := sub e c
  let h := e + c
  let i := b + a
  ⟨mul f g, mul h i, mul g h, mul f i⟩

/-- Twice a point. -/
def double (p : Point) : Point :=
  let a := mul p.x p.x
  let b := mul p.y p.y
  let c := mul 2 (mul p.z p.z)
  let h := a + b
  let e := sub h (mul (p.x + p.y) (p.x + p.y))
  let g := sub a b
  let f := c + g
  ⟨mul e f, mul g h, mul f g, mul e h⟩

/-- The opposite point. -/
def neg (p : Point) : Point := ⟨sub 0 p.x, p.y, p.z, sub 0 p.t⟩

/-- The multiple of a point by the number formed by the lowest `bits` bits of `n`. -/
def times (p : Point) : (bits : Nat) → (n : Nat) → Point
  | 0, _ => neutral
  | bits + 1, n =>
    let twice := (times p bits (n / 2)).double
    if n % 2 = 1 then twice.add p else twice

/-- The octets of a point: `y` in little-endian order, with the lowest bit of `x` as the highest
bit. -/
def compress (p : Point) : Bytes :=
  let zInverse := inverse p.z
  let x := mul p.x zInverse
  let y := mul p.y zInverse
  Bytes.ofNatLE 32 (y + (x % 2) <<< 255)

/-- The point that octets stand for, if it is on the curve. -/
def decompress? (bs : Bytes) : Option Point :=
  let n := Bytes.toNatLE bs
  let y := n % (1 <<< 255) % modulus
  let y2 := mul y y
  let root := sqrtRatio? (sub y2 1) ((mul d y2 + 1) % modulus)
  root.map fun r =>
    let x := if (n >>> 255) % 2 = 1 then sub 0 r else r
    ⟨x, y, 1, mul x y⟩

/-- The base point. -/
def base : Point :=
  let x := 15112221349535400772501151409588531511454012693041857206046113283949847762202
  let y := 46316835694926478169428394003475163141307993866256225615783033603165251855960
  ⟨x, y, 1, mul x y⟩

end Point

/-! ### Signatures -/

/-- The order of the base point. -/
def order : Nat := (1 <<< 252) + 27742317777372353535851937790883648493

/-- Octets as a scalar. -/
def scalarOfDigest (bs : Bytes) : Nat := Bytes.toNatLE bs % order

/-- The signing scalar of a seed: half of its digest, with the lowest three bits and the highest bit
cleared and the second highest set. -/
def signingScalar (digest : Bytes) : Nat :=
  let n := Bytes.toNatLE (digest.take 32)
  n / 8 * 8 % (1 <<< 254) + (1 <<< 254)

end Ed25519

/-- The key that goes with a seed. -/
def Seed.publicKey (seed : Seed) : PublicKey :=
  let a := Ed25519.signingScalar (sha512 seed.bytes.toBytes).toBytes
  ⟨⟨(Ed25519.Point.base.times 255 a).compress, Bytes.length_ofNatLE ..⟩⟩

/-- The key pair of a seed. -/
def KeyPair.ofSeed (seed : Seed) : KeyPair := ⟨seed, seed.publicKey⟩

/-- The signature of a message. It depends on the seed and the message alone: the key that goes into
the digest is the one that goes with the seed. -/
def KeyPair.sign (pair : KeyPair) (message : Bytes) : Signature :=
  let digest := (sha512 pair.seed.bytes.toBytes).toBytes
  let a := Ed25519.signingScalar digest
  let r := Ed25519.scalarOfDigest (sha512 (digest.drop 32 ++ message)).toBytes
  let point := (Ed25519.Point.base.times 253 r).compress
  let k := Ed25519.scalarOfDigest
    (sha512 (point ++ pair.seed.publicKey.bytes.toBytes ++ message)).toBytes
  let s := (r + k * a) % Ed25519.order
  ⟨⟨point ++ Bytes.ofNatLE 32 s, by simp [point, Ed25519.Point.compress]⟩⟩

/-- Whether a signature of a message verifies under a key. -/
def PublicKey.verifies (key : PublicKey) (message : Bytes) (signature : Signature) : Bool :=
  match Ed25519.Point.decompress? key.bytes.toBytes with
  | none => false
  | some a =>
    let s := Bytes.toNatLE signature.scalar
    if s < Ed25519.order then
      let k := Ed25519.scalarOfDigest
        (sha512 (signature.point ++ key.bytes.toBytes ++ message)).toBytes
      let r := (Ed25519.Point.base.times 253 s).add (a.neg.times 253 k)
      decide (r.compress = signature.point)
    else
      false

end NextLedger
