import NextLedger.Policy
import NextLedger.TxSet
import NextLedger.TxSet.Fault

/-!
# Walking a transaction set

One walk serves to check an agreed set and to trim a candidate. It visits the accounts in ascending
order and, of each, the transactions by sequence number. Every transaction is checked against the
last valid one before it; at the end the account must be able to pay for all its valid ones. The
walk only finds violations: a **handler** decides what becomes of each.

The walk reads the transactions as they were when it began. What a handler drops is taken out of the
set, and does not change what the walk still visits.
-/

namespace NextLedger

/-- What to do about a violation. -/
inductive Response
  /-- Leave the set as it is and go on. -/
  | proceed
  /-- Remove the transaction, or all transactions of the account, and go on. -/
  | drop
  /-- Give up. -/
  | abort
deriving DecidableEq

/-- What decides about violations. It may keep a state of type `τ`. -/
structure Handler (τ : Type) where
  onSequence : SequenceViolation → τ → Response × τ
  /-- The list holds all transactions of the account, by sequence number. -/
  onAffordability : AffordabilityViolation → List Frame → τ → Response × τ

namespace Handler

/-- Gives the same response to every violation. -/
def always (r : Response) : Handler Unit := ⟨fun _ u => (r, u), fun _ _ u => (r, u)⟩

/-- Gives up at the first violation. -/
def strict : Handler Unit := always .abort

/-- Drops whatever violates. -/
def trim : Handler Unit := always .drop

end Handler

/-- Where a walk stands: the set as it is now, what has been removed from it, and the states of the
ledger view and the handler. -/
structure Walk (σ τ : Type) where
  set : TxSet
  removed : List Frame
  store : σ
  handler : τ

/-- What is known of an account's transactions visited so far. -/
structure Tally where
  /-- The sequence number of the last valid one, zero if there is none. -/
  lastSequence : SequenceNumber
  /-- The fees of the valid ones. -/
  totalFee : Amount
  /-- The last valid one. -/
  lastValid : Option Frame

namespace Tally

/-- Before any transaction is visited. -/
def start : Tally := ⟨0, 0, none⟩

/-- After one more valid transaction. Privileged accounts pay no fee. -/
def add (t : Tally) (privileged : Bool) (f : Frame) : Tally :=
  ⟨f.sequence, if privileged then t.totalFee else Amount.addClamped t.totalFee f.fee, some f⟩

end Tally

/-- The accounts of some transactions, in ascending order. -/
def sources (fs : List Frame) : List AccountId :=
  (AccountMap.ofList (fs.map fun f => (f.source, ()))).entries.map (·.1)

/-- The transactions of one account by sequence number. Those of one number keep their order. -/
def groupOf (fs : List Frame) (a : AccountId) : List Frame :=
  Sorting.sortBy Frame.sequenceLe (fs.filter fun f => f.source == a)

namespace Walk

variable {σ τ : Type}

/-- Takes a transaction out of the set, and notes it as removed if the set held it. -/
def drop (w : Walk σ τ) (f : Frame) : Walk σ τ :=
  { w with
    set := w.set.remove f
    removed := if w.set.holds f then w.removed ++ [f] else w.removed }

/-- Takes some transactions out of the set one by one. -/
def dropAll (w : Walk σ τ) (fs : List Frame) : Walk σ τ := fs.foldl drop w

/-- Visits one transaction. -/
def visit (view : LedgerView σ) (h : Handler τ) (privileged : Bool) (f : Frame) (t : Tally)
    (w : Walk σ τ) : Except SetFault Tally × Walk σ τ :=
  match f.check view t.lastSequence privileged w.store with
  | (.overflow, store) => (.error .overflow, { w with store := store })
  | (.valid, store) => (.ok (t.add privileged f), { w with store := store })
  | (.invalid reason, store) =>
    let violation := ⟨f.fullHash, f.source, f.sequence, t.lastSequence, reason⟩
    match h.onSequence violation w.handler with
    | (.proceed, handler) => (.ok t, { w with store := store, handler := handler })
    | (.drop, handler) => (.ok t, { w with store := store, handler := handler }.drop f)
    | (.abort, handler) =>
      (.error (.sequence violation), { w with store := store, handler := handler })

/-- Visits some transactions of one account in order. -/
def visitAll (view : LedgerView σ) (h : Handler τ) (privileged : Bool) :
    List Frame → Tally → Walk σ τ → Except SetFault Tally × Walk σ τ
  | [], t, w => (.ok t, w)
  | f :: fs, t, w =>
    match visit view h privileged f t w with
    | (.error fault, w) => (.error fault, w)
    | (.ok t, w) => visitAll view h privileged fs t w

/-- Checks that an account can pay for its valid transactions. -/
def settle (view : LedgerView σ) (h : Handler τ) (a : AccountId) (group : List Frame) (t : Tally)
    (w : Walk σ τ) : Except SetFault Unit × Walk σ τ :=
  match t.lastValid with
  | none => (.ok (), w)
  | some last =>
    match view.load a w.store with
    | (.error fault, store) => (.error (.store fault), { w with store := store })
    | (.ok entry, store) =>
      let w := { w with store := store }
      match view.header.minimumBalance? entry.subEntries with
      | none => (.error .overflow, w)
      | some minimum =>
        if minimum ≤ Amount.subClamped entry.balance t.totalFee then (.ok (), w)
        else
          let violation := ⟨a, last.fullHash, entry.balance, t.totalFee, minimum⟩
          match h.onAffordability violation group w.handler with
          | (.proceed, handler) => (.ok (), { w with handler := handler })
          | (.drop, handler) => (.ok (), { w with handler := handler }.dropAll group)
          | (.abort, handler) =>
            (.error (.affordability violation), { w with handler := handler })

/-- Visits all transactions of one account. -/
def account (view : LedgerView σ) (policy : Policy) (h : Handler τ) (fs : List Frame)
    (a : AccountId) (w : Walk σ τ) : Except SetFault Unit × Walk σ τ :=
  let group := groupOf fs a
  match visitAll view h (policy.isPrivileged a) group .start w with
  | (.error fault, w) => (.error fault, w)
  | (.ok t, w) => settle view h a group t w

/-- Visits the transactions of some accounts in order. -/
def accounts (view : LedgerView σ) (policy : Policy) (h : Handler τ) (fs : List Frame) :
    List AccountId → Walk σ τ → Except SetFault Unit × Walk σ τ
  | [], w => (.ok (), w)
  | a :: as, w =>
    match account view policy h fs a w with
    | (.error fault, w) => (.error fault, w)
    | (.ok (), w) => accounts view policy h fs as w

end Walk

namespace TxSet

variable {σ τ : Type}

/-- Walks a set. A set that is not in canonical order is refused before the ledger or the handler is
asked anything. At the end the walk tells what was removed. -/
def walk (s : TxSet) (view : LedgerView σ) (policy : Policy) (h : Handler τ) (store : σ)
    (handler : τ) : Except SetFault Unit × Walk σ τ :=
  let w : Walk σ τ := ⟨s, [], store, handler⟩
  match firstDescent? s.transactions with
  | some position => (.error (.notCanonical position), w)
  | none => Walk.accounts view policy h s.transactions (sources s.transactions) w

/-- Decides whether an agreed set can be applied on top of a ledger. -/
def check (s : TxSet) (view : LedgerView σ) (policy : Policy) (store : σ) :
    Except SetFault Unit × Walk σ Unit :=
  let w : Walk σ Unit := ⟨s, [], store, ()⟩
  if view.lastClosed.hash ≠ s.previous then
    (.error (.previousMismatch view.lastClosed.hash s.previous), w)
  else if view.maxSetSize < s.size then
    (.error (.tooMany s.size view.maxSetSize), w)
  else s.walk view policy .strict store ()

/-- Puts a set in canonical order and removes every transaction that would make its walk fail. -/
def trim (s : TxSet) (view : LedgerView σ) (policy : Policy) (store : σ) :
    Except SetFault Unit × Walk σ Unit :=
  s.sort.walk view policy .trim store ()

end TxSet

end NextLedger
