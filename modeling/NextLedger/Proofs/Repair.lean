import NextLedger.Command.Run
import NextLedger.Proofs.ContentsHash
import NextLedger.Proofs.Json.Bundles
import NextLedger.Proofs.Json.Yields
import NextLedger.Proofs.Surge
import NextLedger.Proofs.Walk.Trimming

/-!
# Repairing is final

Repairing a bundle cuts its set down to capacity, trims it and puts what is left in place of the
bundle's envelopes, in canonical order. The bundle that comes out is **settled**: repairing it again
removes nothing and writes the same text, and its check passes if the set is built on the ledger of
the bundle (`trim_is_final`).

The argument is that the set of the new bundle is, frame by frame, the set that was left: frames are
made again from their envelopes on the same network, and the previous hash, which may have been left
out before, is now written down. What is left is within capacity, in canonical order and without
findings, which is all that cutting, trimming and checking ask for. Between two commands the bundle
is a text, and that this loses nothing needs its ledger to be keyed; the ledger was read from a text
itself, so it is.
-/

namespace NextLedger

/-! ### Sets within bundles -/

namespace Bundle

theorem network_of_mem_txSet {b : Bundle} {network : Hash256} :
    ∀ f ∈ (b.txSet network).transactions, f.network = network := by
  intro f hf
  obtain ⟨e, -, rfl⟩ := List.mem_map.1 hf
  rfl

/-- Unless the octets of its envelopes collide, full hashes tell the transactions of a bundle
apart. -/
theorem noCollision_txSet {b : Bundle}
    (hcoll : ∀ d ∈ b.envelopes, ∀ e ∈ b.envelopes, sha256 d.toBytes = sha256 e.toBytes → d = e)
    (network : Hash256) : NoCollision (b.txSet network).transactions := by
  refine noCollision_of_network network_of_mem_txSet fun f hf g hg hhash => ?_
  obtain ⟨d, hd, rfl⟩ := List.mem_map.1 hf
  obtain ⟨e, he, rfl⟩ := List.mem_map.1 hg
  exact hcoll d hd e he hhash

/-- A set that is put into a bundle is the set of the bundle. -/
theorem txSet_withTxSet (b : Bundle) {s : TxSet} {network : Hash256}
    (hnetwork : ∀ f ∈ s.transactions, f.network = network) (hmemo : s.memo = none) :
    (b.withTxSet s).txSet network = s := by
  have hframes : (s.transactions.map Frame.envelope).map (Frame.ofEnvelope network) =
      s.transactions := map_ofEnvelope_map_envelope hnetwork
  obtain ⟨previous, fs, memo⟩ := s
  cases hmemo
  rw [txSet, withTxSet, TxSet.toEnvelopes, hframes]
  rfl

/-- A set is put into a bundle in place of what was put there before. -/
@[simp] theorem withTxSet_withTxSet (b : Bundle) (s t : TxSet) :
    (b.withTxSet s).withTxSet t = b.withTxSet t := rfl

end Bundle

namespace Command

/-! ### What repairing leaves -/

section Repair

variable (c : Config) (b : Bundle)

/-- The set of a bundle, cut down to capacity. -/
def candidate : TxSet :=
  ((b.txSet c.network.id).surge (.ofState b.ledger) c.whitelist.toWhitelist.toPolicy).2

/-- What trimming leaves of the candidate. -/
def settled : TxSet := (candidate c b).trimmed (.ofState b.ledger) c.whitelist.toWhitelist.toPolicy

/-- The bundle with what is left in place of its envelopes. -/
def repaired : Bundle := b.withTxSet (settled c b)

/-- All that repairing removes: what is cut off and what is trimmed. -/
def removals : List Frame :=
  let view := LedgerView.ofState b.ledger
  let policy := c.whitelist.toWhitelist.toPolicy
  ((b.txSet c.network.id).surge view policy).1 ++
    ((candidate c b).trim view policy ()).2.removed

/-- Whether the walk over the candidate stays within 64 bits. -/
def InRange : Prop :=
  (candidate c b).NoOverflow (.ofState b.ledger) c.whitelist.toWhitelist.toPolicy

variable {c b}

/-- Once trimming succeeds, what it leaves is put into the bundle. -/
theorem repair_of_trim {w : Walk Unit Unit} (h : (candidate c b).trim (.ofState b.ledger)
    c.whitelist.toWhitelist.toPolicy () = (.ok (), w)) : repair c b = .ok (b.withTxSet w.set) := by
  rw [candidate] at h
  simp only [repair, h]

variable (hrange : InRange c b)
include hrange

theorem settled_subset : (settled c b).transactions ⊆ (b.txSet c.network.id).transactions :=
  fun _ hf => (TxSet.surge_sublist ..).subset
    ((canonicalOrder_perm _).subset ((TxSet.trimmed_sublist hrange).subset hf))

theorem previous_settled : (settled c b).previous = b.previous.getD b.ledger.lastClosed.hash :=
  (TxSet.previous_trimmed hrange).trans (TxSet.previous_surge ..)

theorem canonical_settled : Canonical (settled c b).transactions := TxSet.canonical_trimmed hrange

theorem size_settled_le : (settled c b).size ≤ (LedgerView.ofState b.ledger).maxSetSize :=
  (TxSet.size_trimmed_le hrange).trans (TxSet.size_surge_le _ _ _ (Whitelist.reserve_le _ _))

theorem repair_eq_repaired : repair c b = .ok (repaired c b) := by
  have hok := congrArg Prod.fst (TxSet.trim_eq_dropAll hrange)
  exact repair_of_trim (Prod.ext hok rfl)

/-- The set of the new bundle is the set that was left. -/
theorem txSet_repaired : (repaired c b).txSet c.network.id = settled c b :=
  b.txSet_withTxSet (fun f hf => Bundle.network_of_mem_txSet f (settled_subset hrange hf))
    (TxSet.memo_trimmed hrange)

/-! ### Repairing again -/

/-- What is left is within capacity, so nothing is cut off again. -/
theorem surge_txSet_repaired :
    ((repaired c b).txSet c.network.id).surge (.ofState b.ledger)
      c.whitelist.toWhitelist.toPolicy = ([], settled c b) := by
  rw [txSet_repaired hrange, TxSet.surge_of_le (size_settled_le hrange)]

section Distinct

variable (hcoll : ∀ d ∈ b.envelopes, ∀ e ∈ b.envelopes, sha256 d.toBytes = sha256 e.toBytes → d = e)
include hcoll

theorem findings_settled : findings (.ofState b.ledger) c.whitelist.toWhitelist.toPolicy
    (settled c b).transactions = [] :=
  TxSet.findings_trimmed ((Bundle.noCollision_txSet hcoll _).subset
    (TxSet.surge_sublist ..).subset) hrange

/-- What is left is in canonical order and without findings, so nothing is trimmed again. -/
theorem trim_candidate_repaired : (candidate c (repaired c b)).trim (.ofState b.ledger)
    c.whitelist.toWhitelist.toPolicy () = (.ok (), ⟨settled c b, [], (), ()⟩) := by
  have hcandidate : candidate c (repaired c b) = settled c b :=
    congrArg Prod.snd (surge_txSet_repaired hrange)
  have hsort : (settled c b).sort = settled c b := by
    rw [TxSet.sort, canonicalOrder_of_canonical (canonical_settled hrange),
      ← TxSet.memo_trimmed hrange]
    rfl
  rw [hcandidate, TxSet.trim_of_findings_eq_nil (canonical_settled hrange)
    (findings_settled hrange hcoll), hsort]

theorem removals_repaired : removals c (repaired c b) = [] := by
  have hcut := congrArg Prod.fst (surge_txSet_repaired hrange)
  have htrimmed := congrArg (fun result => result.2.removed) (trim_candidate_repaired hrange hcoll)
  exact List.append_eq_nil_iff.2 ⟨hcut, htrimmed⟩

/-- **Repairing is idempotent.** -/
theorem repair_repaired : repair c (repaired c b) = .ok (repaired c b) := by
  have hrepair := repair_of_trim (b := repaired c b) (trim_candidate_repaired hrange hcoll)
  rwa [repaired, Bundle.withTxSet_withTxSet] at hrepair

/-- What is left is accepted if it is built on the ledger of the bundle. -/
theorem check_settled_eq_ok_iff :
    ((settled c b).check (.ofState b.ledger) c.whitelist.toWhitelist.toPolicy ()).1 = .ok () ↔
      b.previous = none ∨ b.previous = some b.ledger.lastClosed.hash := by
  simp only [TxSet.check_eq_ok_iff_findings, previous_settled hrange, size_settled_le hrange,
    canonical_settled hrange, findings_settled hrange hcoll, and_true]
  cases b.previous with
  | none => simp [LedgerView.ofState, LedgerView.fixed]
  | some h => simp [LedgerView.ofState, LedgerView.fixed, eq_comm]

end Distinct

end Repair

/-! ### From text to text -/

section Run

variable {c : Config} {files : Files} {path text : String} {b : Bundle}

theorem load_eq_ok (hfile : files path = some text) (htext : Bundle.ofText text = .ok b) :
    load files path = .ok b := by
  simp only [load, hfile, htext]

theorem run_trim (hload : load files path = .ok b) {out : Bundle} (hrepair : repair c b = .ok out)
    (target : Option String) : run c files (.trim path target) = .ok (deliver out target) := by
  simp only [run, hload, bind, Except.bind, hrepair]
  rfl

theorem run_check_eq_ok_iff (hload : load files path = .ok b) :
    run c files (.check path) = .ok (.print "valid\n") ↔
      ((b.txSet c.network.id).check (.ofState b.ledger)
        c.whitelist.toWhitelist.toPolicy ()).1 = .ok () := by
  simp only [run, hload, bind, Except.bind]
  split <;> rename_i hcheck <;> simp [hcheck, pure, Except.pure]

/-- **Repairing is final.** For every text that is read as a bundle, every configuration, and as
long as neither the envelopes of the bundle collide nor an amount overflows, repairing succeeds.
The bundle that it writes, to a file or to the terminal, is read back. Repairing it again removes
nothing and writes the same text; its set has the contents hash of the set that was left, and its
check passes exactly if the bundle did not name a ledger to build on, or named the one that it
holds. -/
theorem trim_is_final (hfile : files path = some text) (htext : Bundle.ofText text = .ok b)
    (hcoll : ∀ d ∈ b.envelopes, ∀ e ∈ b.envelopes, sha256 d.toBytes = sha256 e.toBytes → d = e)
    (hrange : InRange c b) :
    ∃ out : Bundle, (∀ target, run c files (.trim path target) = .ok (deliver out target)) ∧
      removals c out = [] ∧
      (out.txSet c.network.id).contentsHash.1 = (settled c b).contentsHash.1 ∧
      ∀ written, written = out.toText ∨ written = out.toText ++ "\n" →
        Bundle.ofText written = .ok out ∧
        ∀ (files' : Files) (path' : String), files' path' = some written →
          (∀ target, run c files' (.trim path' target) = .ok (deliver out target)) ∧
          (run c files' (.check path') = .ok (.print "valid\n") ↔
            b.previous = none ∨ b.previous = some b.ledger.lastClosed.hash) := by
  -- Repairing leaves the ledger as it was read.
  have hkeyed : (repaired c b).ledger.Keyed := (Bundle.keyed_of_ofText htext : b.ledger.Keyed)
  refine ⟨repaired c b, run_trim (load_eq_ok hfile htext) (repair_eq_repaired hrange),
    removals_repaired hrange hcoll, by rw [txSet_repaired hrange], fun written hwritten => ?_⟩
  have hread : Bundle.ofText written = .ok (repaired c b) := by
    rcases hwritten with rfl | rfl
    · exact Bundle.ofText_toText hkeyed
    · exact Bundle.ofText_toText_append hkeyed
  refine ⟨hread, fun files' path' hfile' => ⟨?_, ?_⟩⟩
  · exact run_trim (load_eq_ok hfile' hread) (repair_repaired hrange hcoll)
  · rw [run_check_eq_ok_iff (load_eq_ok hfile' hread), txSet_repaired hrange]
    exact check_settled_eq_ok_iff hrange hcoll

end Run

end Command

/-- The contested set on the sample ledger, which it exceeds by one, without a ledger named. -/
def Sample.unsettled : Bundle := ⟨ledger, none, contested.transactions.map Frame.envelope⟩

theorem Sample.inRange_unsettled : Command.InRange .default unsettled := by
  have hfit : (unsettled.txSet Network.dev.id).AmountsFit (.ofState ledger) :=
    .of_size (by decide) (by decide) (by decide)
  exact (hfit.sublist (TxSet.surge_sublist ..)).noOverflow _

set_option maxRecDepth 100000 in
theorem Sample.distinct_unsettled : ∀ d ∈ unsettled.envelopes, ∀ e ∈ unsettled.envelopes,
    sha256 d.toBytes = sha256 e.toBytes → d = e := by
  decide +kernel

/-- The case of a contested set beyond capacity: what the terminal shows of its repair is valid. -/
theorem Command.trim_of_unsettled :
    ∃ out : Bundle,
      run .default (fun _ => some Sample.unsettled.toText) (.trim "in" none) =
        .ok (.print (out.toText ++ "\n")) ∧
      removals .default out = [] ∧
      run .default (fun _ => some (out.toText ++ "\n")) (.check "out") =
        .ok (.print "valid\n") := by
  have hkeyed : Sample.unsettled.ledger.Keyed := (by decide : Sample.ledger.Keyed)
  have htext : Bundle.ofText Sample.unsettled.toText = .ok Sample.unsettled :=
    Bundle.ofText_toText hkeyed
  have hprevious : Sample.unsettled.previous = none := rfl
  generalize Sample.unsettled.toText = text at htext ⊢
  obtain ⟨out, htrim, hremovals, -, hwritten⟩ :=
    @trim_is_final .default (fun _ => some text) "in" text Sample.unsettled rfl htext
      Sample.distinct_unsettled Sample.inRange_unsettled
  obtain ⟨-, hagain⟩ := hwritten _ (.inr rfl)
  refine ⟨out, htrim none, hremovals, ?_⟩
  exact (hagain (fun _ => some (out.toText ++ "\n")) "out" rfl).2.2 (.inl hprevious)

end NextLedger
