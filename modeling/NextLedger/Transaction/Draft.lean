import NextLedger.Transaction.Frame

/-!
# Drafts

A draft is a transaction whose fee may still be open. Without a fee of its own it offers the
**customary fee** for each of its operations, and for one if it has none.
-/

namespace NextLedger

/-- A transaction in the making. -/
structure Draft where
  source : AccountId
  sequence : SequenceNumber
  fee : Option UInt32
  memo : Option String
  operations : List Operation
deriving DecidableEq

namespace Draft

/-- The fee for one operation of a draft that names none. -/
def customaryFee : Nat := 100

/-- The customary fee for so many operations, at most the greatest fee. The count is a word of 32
bits. -/
def defaultFee (operations : Nat) : UInt32 :=
  let count := UInt32.ofNat (max 1 operations)
  UInt32.ofNat (min (customaryFee * count.toNat) (UInt32.size - 1))

/-- A draft without operations, fee and memo. -/
def start (source : AccountId) (sequence : SequenceNumber) : Draft :=
  ⟨source, sequence, none, none, []⟩

/-- The draft with a fee of its own. -/
def withFee (d : Draft) (fee : UInt32) : Draft := { d with fee := some fee }

/-- The draft with a memo. -/
def withMemo (d : Draft) (memo : String) : Draft := { d with memo := some memo }

/-- The draft with one more operation. -/
def withOperation (d : Draft) (operation : Operation) : Draft :=
  { d with operations := d.operations ++ [operation] }

/-- The transaction that the draft has become. -/
def build (d : Draft) : Transaction where
  source := d.source
  fee := d.fee.getD (defaultFee d.operations.length)
  sequence := d.sequence
  memo := d.memo
  operations := d.operations

/-- The transaction, signed by each of some signers in order. -/
def sign (d : Draft) (network : Hash256) (signers : List KeyPair) : Envelope :=
  signers.foldl (fun e signer => e.sign network signer) ⟨d.build, []⟩

/-- The frame of the signed transaction. -/
def frame (d : Draft) (network : Hash256) (signers : List KeyPair) : Frame :=
  Frame.ofEnvelope network (d.sign network signers)

end Draft

end NextLedger
