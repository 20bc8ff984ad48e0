import NextLedger.Bytes

/-!
# The SHA-2 family

SHA-256 and SHA-512 are one construction over words of two sizes. A message is padded to whole
blocks of sixteen words, each block is stretched to a **schedule** with one word for each round, and
the rounds fold the schedule into eight running words. A `Variant` holds what the sizes do not
share: how a word is written, its rotations, and the constants.
-/

namespace NextLedger

namespace Sha2

/-- Eight words: the running state between blocks and within one. -/
structure State (W : Type) where
  a : W
  b : W
  c : W
  d : W
  e : W
  f : W
  g : W
  h : W

/-- The words of a state in order. -/
def State.toList {W : Type} (s : State W) : List W := [s.a, s.b, s.c, s.d, s.e, s.f, s.g, s.h]

/-- One member of the family. -/
structure Variant (W : Type) where
  /-- The number of octets in a word. -/
  width : Nat
  /-- The word that octets write, most significant first. -/
  ofNat : Nat → W
  /-- The word as a number. -/
  toNat : W → Nat
  /-- The two rotations that stretch the schedule. -/
  smallSigma0 : W → W
  smallSigma1 : W → W
  /-- The two rotations of a round. -/
  bigSigma0 : W → W
  bigSigma1 : W → W
  /-- The constant of each round. -/
  constants : List W
  /-- The state before the first block. -/
  start : State W

section

variable {W : Type}

/-- The number of octets in a block. -/
def Variant.blockSize (v : Variant W) : Nat := 16 * v.width

/-- The octets after a message of `length` octets: a one bit, zeros up to two words before the end
of a block, and the length in bits in those two words. -/
def padding (v : Variant W) (length : Nat) : Bytes :=
  let tail := 1 + 2 * v.width
  let zeros := (v.blockSize - (length + tail) % v.blockSize) % v.blockSize
  0x80 :: (List.replicate zeros 0 ++ Bytes.ofNatBE (2 * v.width) (8 * length))

/-- The first `count` pieces of `size` elements. -/
def pieces {α : Type} (size : Nat) : (count : Nat) → List α → List (List α)
  | 0, _ => []
  | count + 1, xs => xs.take size :: pieces size count (xs.drop size)

/-- The sixteen words of a block. -/
def words (v : Variant W) (block : Bytes) : List W :=
  (pieces v.width 16 block).map fun bs => v.ofNat (Bytes.toNatBE bs)

variable [Add W] [XorOp W] [AndOp W] [Complement W]

/-- The word that follows, given the words so far, the latest first. Of fewer than sixteen words
nothing follows. -/
def nextWord? (v : Variant W) (latest : List W) : Option W := do
  let w2 ← latest[1]?
  let w7 ← latest[6]?
  let w15 ← latest[14]?
  let w16 ← latest[15]?
  return v.smallSigma1 w2 + w7 + v.smallSigma0 w15 + w16

/-- Adds `count` words to those so far, the latest first. -/
def stretch (v : Variant W) : (count : Nat) → (latest : List W) → List W
  | 0, latest => latest
  | count + 1, latest =>
    match nextWord? v latest with
    | none => latest
    | some w => stretch v count (w :: latest)

/-- One word for each round: the block's sixteen, then each from those before it. -/
def schedule (v : Variant W) (block : Bytes) : List W :=
  (stretch v (v.constants.length - 16) (words v block).reverse).reverse

/-- One round, with its constant and its word of the schedule. -/
def round (v : Variant W) (s : State W) (constantAndWord : W × W) : State W :=
  let choice := (s.e &&& s.f) ^^^ (~~~s.e &&& s.g)
  let majority := (s.a &&& s.b) ^^^ (s.a &&& s.c) ^^^ (s.b &&& s.c)
  let t1 := s.h + v.bigSigma1 s.e + choice + constantAndWord.1 + constantAndWord.2
  let t2 := v.bigSigma0 s.a + majority
  ⟨t1 + t2, s.a, s.b, s.c, s.d + t1, s.e, s.f, s.g⟩

/-- The state after one more block. -/
def compress (v : Variant W) (s : State W) (block : Bytes) : State W :=
  let r := (v.constants.zip (schedule v block)).foldl (round v) s
  ⟨s.a + r.a, s.b + r.b, s.c + r.c, s.d + r.d, s.e + r.e, s.f + r.f, s.g + r.g, s.h + r.h⟩

/-- The digest of a message: the eight words after its last block, most significant octet first. -/
def digest (v : Variant W) (message : Bytes) : Bytes :=
  let padded := message ++ padding v message.length
  let blocks := pieces v.blockSize (padded.length / v.blockSize) padded
  let final := blocks.foldl (compress v) v.start
  final.toList.flatMap fun w => Bytes.ofNatBE v.width (v.toNat w)

@[simp] theorem length_digest (v : Variant W) (message : Bytes) :
    (digest v message).length = 8 * v.width := by
  simp only [digest, State.toList, List.flatMap_cons, List.flatMap_nil, List.length_append,
    Bytes.length_ofNatBE, List.length_nil]
  omega

end

end Sha2

end NextLedger
