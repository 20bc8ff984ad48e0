import NextLedger.Bytes.Lemmas
import NextLedger.Main
import NextLedger.TxSet.Json
import NextLedger.Proofs.Agreement
import NextLedger.Proofs.Arrival
import NextLedger.Proofs.Commitment
import NextLedger.Proofs.Walk.Acceptance
import NextLedger.Proofs.Walk.Chain
import NextLedger.Proofs.Walk.Contiguity
import NextLedger.Proofs.History
import NextLedger.Proofs.Repair
import NextLedger.Proofs.Comparison
import NextLedger.Proofs.Turns
import NextLedger.Proofs.Rounds
import NextLedger.Proofs.Surge.Capacity
import NextLedger.Proofs.Surge.Prefix
import NextLedger.Proofs.Surge.Ratios
import NextLedger.Proofs.Surge.Arrival
import NextLedger.Proofs.Surge.Inversion
import NextLedger.Proofs.Surge.Holder
import NextLedger.Proofs.Walk.Conservation
import NextLedger.Proofs.Walk.Exact
import NextLedger.Proofs.Walk.Gate
import NextLedger.Proofs.Holdings
import NextLedger.Proofs.Signatures
import NextLedger.Proofs.Config
import NextLedger.Proofs.Surge.Ranking
import NextLedger.Proofs.MaskedOrder
import NextLedger.Proofs.Identifier
