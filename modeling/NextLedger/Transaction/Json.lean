import NextLedger.Json.Form
import NextLedger.Transaction

/-!
# The JSON form of transactions

An operation is a record with one member, named for its kind. A memo that is missing or nothing is
absent; signatures that are missing are none.
-/

namespace NextLedger

namespace Json.Form

/-- The fields of an operation that creates an account. -/
def createAccount : Form (AccountId × Amount) :=
  record ((Fields.required "destination" account).and (.required "starting_balance" i64))

/-- The fields of a payment. -/
def payment : Form (AccountId × Amount) :=
  record ((Fields.required "destination" account).and (.required "amount" i64))

/-- The field of an operation that raises a sequence number. -/
def bumpSequence : Form SequenceNumber := record (.required "bump_to" i64)

/-- How the fields of an operation of the given kind are read. -/
def operationOf? (kind : String) : Option (Reader Operation) :=
  if kind = "create_account" then
    some (Reader.map (fun p => .createAccount p.1 p.2) createAccount.read)
  else if kind = "payment" then some (Reader.map (fun p => .payment p.1 p.2) payment.read)
  else if kind = "bump_sequence" then some (Reader.map .bumpSequence bumpSequence.read)
  else none

/-- An operation. -/
def operation : Form Operation where
  write
    | .createAccount destination startingBalance =>
      .record [("create_account", createAccount.write (destination, startingBalance))]
    | .payment destination amount =>
      .record [("payment", payment.write (destination, amount))]
    | .bumpSequence bumpTo => .record [("bump_sequence", bumpSequence.write bumpTo)]
  read := choice operationOf?

/-- A transaction. -/
def transaction : Form Transaction :=
  (record
    ((Fields.required "source_account" account).and
      ((Fields.required "fee" u32).and
        ((Fields.required "seq_num" i64).and
          ((Fields.defaulted "memo" (option string) none).and
            (.required "operations" (list operation))))))).via
    (fun (source, fee, sequence, memo, operations) => ⟨source, fee, sequence, memo, operations⟩)
    (fun t => (t.source, t.fee, t.sequence, t.memo, t.operations))

/-- A hint and a signature. -/
def hintedSignature : Form HintedSignature :=
  (record ((Fields.required "hint" hint).and (.required "signature" signature))).via
    (fun (hint, signature) => ⟨hint, signature⟩) (fun s => (s.hint, s.signature))

/-- A transaction and its signatures. -/
def envelope : Form Envelope :=
  (record
    ((Fields.required "tx" transaction).and
      (.defaulted "signatures" (list hintedSignature) []))).via
    (fun (transaction, signatures) => ⟨transaction, signatures⟩)
    (fun e => (e.transaction, e.signatures))

end Json.Form

end NextLedger
