import NextLedger.Transaction
import NextLedger.Wire

/-!
# The wire format of transactions

The forms of operations, transactions and envelopes. The form of an envelope is what is hashed to
name a transaction, signatures included, so two envelopes that differ in a signature are different
transactions.
-/

namespace NextLedger

namespace Wire

/-- A destination and an amount. -/
def transfer : Form (AccountId × Amount) := account.and i64

/-- An operation: the number of its kind, then its fields. -/
def operation : Form Operation where
  encode
    | .createAccount destination startingBalance =>
      u32.encode 0 ++ transfer.encode (destination, startingBalance)
    | .payment destination amount => u32.encode 1 ++ transfer.encode (destination, amount)
    | .bumpSequence bumpTo => u32.encode 2 ++ i64.encode bumpTo
  decode bs := do
    let (kind, bs) ← u32.decode bs
    if kind = 0 then
      let ((destination, startingBalance), bs) ← transfer.decode bs
      return (.createAccount destination startingBalance, bs)
    else if kind = 1 then
      let ((destination, amount), bs) ← transfer.decode bs
      return (.payment destination amount, bs)
    else if kind = 2 then
      let (bumpTo, bs) ← i64.decode bs
      return (.bumpSequence bumpTo, bs)
    else
      .error (.choice kind 3)
  Fits _ := True

/-- A transaction: source, fee, sequence number, memo, operations. -/
def transaction : Form Transaction :=
  (account.and (u32.and (i64.and ((option text).and (list operation))))).via
    (fun (source, fee, sequence, memo, operations) => ⟨source, fee, sequence, memo, operations⟩)
    (fun t => (t.source, t.fee, t.sequence, t.memo, t.operations))

/-- A hint and a signature. -/
def hintedSignature : Form HintedSignature :=
  (hint.and signature).via (fun (hint, signature) => ⟨hint, signature⟩)
    (fun s => (s.hint, s.signature))

/-- A transaction and its signatures. -/
def envelope : Form Envelope :=
  (transaction.and (list hintedSignature)).via
    (fun (transaction, signatures) => ⟨transaction, signatures⟩)
    (fun e => (e.transaction, e.signatures))

end Wire

end NextLedger
