import NextLedger.Ed25519
import NextLedger.Ledger.Wire
import NextLedger.Sha2.Sha256

/-!
# The chain of ledgers

A ledger is named by the digest of its header and of the transaction set that it applied. Each
header names the ledger before it, so a name commits to everything since the **genesis** ledger, in
which one root account holds the whole supply.
-/

namespace NextLedger

/-- The name of a ledger with the given header that applied the set with the given hash. -/
def LedgerHeader.hash (h : LedgerHeader) (setHash : Hash256) : Hash256 :=
  sha256 (Wire.ledgerHeader.encode h ++ setHash.toBytes)

/-- The last sequence number has been used. -/
structure SequenceOverflow where
  sequence : UInt32
deriving DecidableEq

/-- The fault as a sentence. -/
def SequenceOverflow.message (o : SequenceOverflow) : String :=
  s!"ledger sequence overflow at {o.sequence.toNat}"

namespace ClosedLedger

/-- The ledger after `c`, which applies the set with the given hash. The parameters in force carry
over. -/
def next (c : ClosedLedger) (setHash : Hash256) (closeTime : UInt64) :
    Except SequenceOverflow ClosedLedger :=
  if c.header.sequence.toNat + 1 = UInt32.size then .error ⟨c.header.sequence⟩
  else
    let header :=
      { c.header with
        sequence := c.header.sequence + 1
        previous := c.hash
        closeTime := closeTime }
    .ok ⟨header.hash setHash, header⟩

end ClosedLedger

namespace LedgerState

/-- Closes the next ledger. Accounts are not touched. -/
def close (s : LedgerState) (setHash : Hash256) (closeTime : UInt64) :
    Except SequenceOverflow LedgerState :=
  (s.lastClosed.next setHash closeTime).map fun closed => { s with lastClosed := closed }

end LedgerState

/-! ### Genesis -/

namespace Network

/-- The key pair of the root account: its seed is the network's id. -/
def rootKeyPair (n : Network) : KeyPair := KeyPair.ofSeed ⟨n.id.bytes⟩

/-- The balance of the root account at genesis, which is the whole supply. -/
def totalSupply : Amount := 1000000000000000000

/-- The header of the genesis ledger. -/
def genesisHeader : LedgerHeader where
  sequence := 1
  previous := Hash256.zero
  baseFee := 100
  baseReserve := 5000000
  maxSetSize := 100
  closeTime := 0

/-- The genesis ledger. The network's id stands for the hash of a set. -/
def genesisLedger (n : Network) : ClosedLedger := ⟨genesisHeader.hash n.id, genesisHeader⟩

/-- The genesis state: the root account holds everything. -/
def genesis (n : Network) : LedgerState :=
  (LedgerState.ofClosed n.genesisLedger).put ⟨⟨n.rootKeyPair.key⟩, totalSupply, 0, 0⟩

end Network

end NextLedger
