import NextLedger.Transaction.Frame
import NextLedger.Ledger.State

/-!
# Validity of one transaction

Whether a transaction could be applied on top of a ledger, right after the source's transaction with
a given sequence number. The checks run from what the transaction alone shows to what needs the
ledger and the signatures; the first to fail gives the reason.
-/

namespace NextLedger

/-- What is wrong with an operation. -/
inductive OperationFault
  | startingBalanceNotPositive
  | createsItself
  | amountNotPositive
  | negativeBump
deriving DecidableEq

/-- The fault as a sentence. -/
def OperationFault.message : OperationFault → String
  | .startingBalanceNotPositive => "starting balance must be positive"
  | .createsItself => "account cannot create itself"
  | .amountNotPositive => "payment amount must be positive"
  | .negativeBump => "cannot bump to a negative sequence"

/-- What is wrong with an operation of the given source, if anything. Balances and the existence of
destinations are matters for the time of application. -/
def Operation.fault? (source : AccountId) : Operation → Option OperationFault
  | .createAccount destination startingBalance =>
    if startingBalance ≤ 0 then some .startingBalanceNotPositive
    else if destination = source then some .createsItself
    else none
  | .payment _ amount => if amount ≤ 0 then some .amountNotPositive else none
  | .bumpSequence bumpTo => if bumpTo < 0 then some .negativeBump else none

/-- Why a transaction is not valid. -/
inductive Invalidity
  | missingOperation
  | malformedOperation (index : Nat) (fault : OperationFault)
  | insufficientFee (fee minFee : Amount)
  | noAccount (account : AccountId)
  | badSequence (expected actual : SequenceNumber)
  | badAuthorization
  | store (fault : StoreFault)
deriving DecidableEq

/-- The reason as a sentence. -/
def Invalidity.message : Invalidity → String
  | .missingOperation => "transaction has no operations"
  | .malformedOperation index fault => s!"operation {index} is malformed: {fault.message}"
  | .insufficientFee fee minFee => s!"fee {fee} is below the minimum {minFee}"
  | .noAccount account => s!"source account {account.toHex} does not exist"
  | .badSequence expected actual => s!"bad sequence number: expected {expected}, got {actual}"
  | .badAuthorization => "missing a valid signature from the source account"
  | .store fault => s!"ledger read failed: {fault.message}"

/-- The answer about one transaction. -/
inductive Verdict
  | valid
  | invalid (reason : Invalidity)
  /-- The least fee is no amount, so that there is no answer. -/
  | overflow
deriving DecidableEq

namespace Transaction

/-- The first operation that is malformed, with its index. -/
def malformed? (t : Transaction) : Option (Nat × OperationFault) :=
  (t.operations.zipIdx).findSome? fun (op, index) =>
    (op.fault? t.source).map fun fault => (index, fault)

end Transaction

namespace Frame

/-- Whether some signature carries the source's hint and verifies under its key. -/
def isSigned (f : Frame) : Bool :=
  f.envelope.signatures.any fun s =>
    decide (s.hint = f.source.key.hint) && f.source.key.verifies f.payload.toBytes s.signature

/-- The checks that need the source's account: the sequence number after `last`, and the signature.
A `last` of zero stands for the number in the account. Nothing follows the greatest number. -/
def checkAccount (f : Frame) (entry : AccountEntry) (last : SequenceNumber) : Verdict :=
  let current := if last = 0 then entry.sequence else last
  let expected := Amount.addClamped current 1
  if current.toInt = Amount.greatest ∨ f.sequence ≠ expected then
    .invalid (.badSequence expected f.sequence)
  else if f.isSigned then .valid
  else .invalid .badAuthorization

/-- The checks before the source's account is loaded: operations and fee. A transaction that is
**exempt** may offer any fee. -/
def checkAlone (f : Frame) (header : LedgerHeader) (exempt : Bool) : Verdict :=
  if f.transaction.operations.isEmpty then .invalid .missingOperation
  else
    match f.transaction.malformed? with
    | some (index, fault) => .invalid (.malformedOperation index fault)
    | none =>
      match f.minFee? header with
      | none => .overflow
      | some minFee =>
        if !exempt && decide (f.fee < minFee) then .invalid (.insufficientFee f.fee minFee)
        else .valid

variable {σ : Type}

/-- Whether a transaction could be applied on top of a ledger, right after the source's transaction
numbered `last`, or as the source's first if `last` is zero. -/
def check (f : Frame) (view : LedgerView σ) (last : SequenceNumber) (exempt : Bool) (s : σ) :
    Verdict × σ :=
  match f.checkAlone view.header exempt with
  | .valid =>
    match view.load f.source s with
    | (.error (.notFound _), s) => (.invalid (.noAccount f.source), s)
    | (.error fault, s) => (.invalid (.store fault), s)
    | (.ok entry, s) => (f.checkAccount entry last, s)
  | verdict => (verdict, s)

end Frame

end NextLedger
