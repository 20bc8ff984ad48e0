import NextLedger.Bundle
import NextLedger.Proofs.Accounts
import NextLedger.Proofs.Affordability
import NextLedger.Proofs.Json.Forms

/-!
# Bundles survive their text

Every form of the file format reads back what it writes (`text_is_read_back`): operations,
transactions, envelopes, ledgers and the bundles made of them. The lemmas follow the forms, one for
each, and say nothing about characters any more.

The one form that does not read back every value is that of ledger states, because the list of
accounts says nothing of the keys under which they are held. It reads back the states that hold
each account under its own identifier; no other state comes out of a text.
-/

namespace NextLedger

namespace Json

/-- A whole text of one printed value and blanks after it is read back. -/
theorem readAll_of_readsBack {α : Type} {f : Form α} {a : α} (h : f.ReadsBack a) (layout : Layout)
    {t : String} {rest : List Char} (ht : t.toList = render layout 0 (f.write a) ++ rest)
    (hrest : Ends rest) (hblank : skipBlanks rest = []) : readAll f.read t = .ok a := by
  simp only [readAll, ht, (h layout 0).apply hrest, bind, Except.bind, hblank, List.isEmpty_nil,
    if_true]

/-- A value in some layout. -/
def laidOut (layout : Layout) (j : Json) : String := String.ofList (render layout 0 j)

theorem readAll_laidOut {α : Type} {f : Form α} {a : α} (h : f.ReadsBack a) (layout : Layout) :
    readAll f.read (laidOut layout (f.write a)) = .ok a :=
  readAll_of_readsBack h layout (String.toList_ofList.trans (List.append_nil _).symm) nofun rfl

/-- What a terminal shows of a value has a line break at its end. -/
theorem readAll_pretty_append {α : Type} {f : Form α} {a : α} (h : f.ReadsBack a) :
    readAll f.read ((f.write a).pretty ++ "\n") = .ok a := by
  refine readAll_of_readsBack h .indented ?_ (ends_cons (c := '\n') (by decide) []) rfl
  rw [String.toList_append, pretty, String.toList_ofList]
  rfl

namespace Form

/-! ### Transactions -/

theorem readsBack_createAccount (p : AccountId × Amount) : createAccount.ReadsBack p :=
  .record (by decide) (.and (.required _ (readsBack_account p.1)) (.required _ (readsBack_i64 p.2)))

theorem readsBack_payment (p : AccountId × Amount) : payment.ReadsBack p :=
  .record (by decide) (.and (.required _ (readsBack_account p.1)) (.required _ (readsBack_i64 p.2)))

theorem readsBack_bumpSequence (n : SequenceNumber) : bumpSequence.ReadsBack n :=
  .record (by decide) (.required _ (readsBack_i64 n))

theorem readsBack_operation (op : Operation) : operation.ReadsBack op := by
  cases op with
  | createAccount destination startingBalance =>
    exact reads_choice rfl fun layout depth =>
      (readsBack_createAccount (destination, startingBalance) layout depth).map _
  | payment destination amount =>
    exact reads_choice rfl fun layout depth =>
      (readsBack_payment (destination, amount) layout depth).map _
  | bumpSequence bumpTo =>
    exact reads_choice rfl fun layout depth =>
      (readsBack_bumpSequence bumpTo layout depth).map _

theorem readsBack_transaction (t : Transaction) : transaction.ReadsBack t := by
  refine .via (.record (by decide) ?_) rfl
  exact .and (.required _ (readsBack_account t.source)) <|
    .and (.required _ (readsBack_u32 t.fee)) <|
    .and (.required _ (readsBack_i64 t.sequence)) <|
    .and (.defaulted _ _ (.option fun memo _ => ⟨readsBack_string memo, nofun⟩))
      (.required _ (.list fun op _ => readsBack_operation op))

theorem readsBack_hintedSignature (s : HintedSignature) : hintedSignature.ReadsBack s := by
  refine .via (.record (by decide) ?_) rfl
  exact .and (.required _ (readsBack_hint s.hint)) (.required _ (readsBack_signature s.signature))

theorem readsBack_envelope (e : Envelope) : envelope.ReadsBack e := by
  refine .via (.record (by decide) ?_) rfl
  exact .and (.required _ (readsBack_transaction e.transaction))
    (.defaulted _ _ (.list fun s _ => readsBack_hintedSignature s))

/-! ### Ledgers and bundles -/

theorem readsBack_ledgerHeader (h : LedgerHeader) : ledgerHeader.ReadsBack h := by
  refine .via (.record (by decide) ?_) rfl
  exact .and (.required _ (readsBack_u32 h.sequence)) <|
    .and (.required _ (readsBack_hash h.previous)) <|
    .and (.required _ (readsBack_u32 h.baseFee)) <|
    .and (.required _ (readsBack_u32 h.baseReserve)) <|
    .and (.required _ (readsBack_u32 h.maxSetSize)) (.required _ (readsBack_u64 h.closeTime))

theorem readsBack_closedLedger (c : ClosedLedger) : closedLedger.ReadsBack c := by
  refine .via (.record (by decide) ?_) rfl
  exact .and (.required _ (readsBack_hash c.hash)) (.required _ (readsBack_ledgerHeader c.header))

theorem readsBack_accountEntry (e : AccountEntry) : accountEntry.ReadsBack e := by
  refine .via (.record (by decide) ?_) rfl
  exact .and (.required _ (readsBack_account e.id)) <|
    .and (.required _ (readsBack_i64 e.balance)) <|
    .and (.required _ (readsBack_i64 e.sequence)) (.defaulted _ _ (readsBack_u32 e.subEntries))

theorem readsBack_ledgerListing (p : ClosedLedger × List AccountEntry) :
    ledgerListing.ReadsBack p :=
  .record (by decide) (.and (.required _ (readsBack_closedLedger p.1))
    (.defaulted _ _ (.list fun e _ => readsBack_accountEntry e)))

theorem readsBack_ledgerState {s : LedgerState} (hs : s.Keyed) : ledgerState.ReadsBack s :=
  .via (readsBack_ledgerListing (s.lastClosed, s.accounts.values)) hs.ofEntries_values

theorem readsBack_bundle {b : Bundle} (hb : b.ledger.Keyed) : bundle.ReadsBack b := by
  refine .via (.record (by decide) ?_) rfl
  exact .and (.required _ (readsBack_ledgerState hb)) <|
    .and (.omitted _ fun h _ => ⟨readsBack_hash h, nofun⟩)
      (.defaulted _ _ (.list fun e _ => readsBack_envelope e))

end Form

end Json

/-! ### Whole texts -/

theorem Bundle.ofText_toText {b : Bundle} (hb : b.ledger.Keyed) : ofText b.toText = .ok b :=
  Json.readAll_laidOut (Json.Form.readsBack_bundle hb) .indented

theorem Bundle.ofText_toText_append {b : Bundle} (hb : b.ledger.Keyed) :
    ofText (b.toText ++ "\n") = .ok b :=
  Json.readAll_pretty_append (Json.Form.readsBack_bundle hb)

/-- **The file format loses nothing.** The text of a bundle whose ledger holds each account under
its own identifier is read back as the bundle: any balances, numbers and times, any memo or none,
any number of accounts, envelopes, operations and signatures, on a ledger that is given or not. So
are the compact texts of such a ledger and of any envelope, whose octets and name are thus the same
before and after. -/
theorem Json.text_is_read_back :
    (∀ b : Bundle, b.ledger.Keyed → Bundle.ofText b.toText = .ok b) ∧
    (∀ s : LedgerState, s.Keyed →
      readAll Form.ledgerState.read (Form.ledgerState.write s).compact = .ok s) ∧
    (∀ e : Envelope, ∃ d, readAll Form.envelope.read (Form.envelope.write e).compact = .ok d ∧
      d = e ∧ d.toBytes = e.toBytes ∧
      ∀ network, (Frame.ofEnvelope network d).fullHash = (Frame.ofEnvelope network e).fullHash) :=
  ⟨fun _ hb => Bundle.ofText_toText hb,
    fun _ hs => readAll_laidOut (Form.readsBack_ledgerState hs) .compact,
    fun e => ⟨e, readAll_laidOut (Form.readsBack_envelope e) .compact, rfl, rfl, fun _ => rfl⟩⟩

/-- A bundle on the sample ledger with the least amount, the greatest fee and a memo of characters
that are escaped. -/
def Sample.marked : Bundle :=
  ⟨ledger, some .zero, [
    ⟨⟨entry.id, 0xFFFFFFFF, Int64.minValue, some "\"\\/\t\n\x00\x1Fé",
      [.payment entry.id Int64.minValue, .createAccount entry.id Int64.maxValue, .bumpSequence 0]⟩,
      [⟨key.hint, ⟨.fill 64 0xAB⟩⟩]⟩]⟩

/-- The case of a bundle with an account in its ledger and a memo that is escaped. -/
theorem Json.marked_is_read_back :
    Sample.marked.ledger.Keyed ∧ Bundle.ofText Sample.marked.toText = .ok Sample.marked ∧
      readAll Form.ledgerState.read (Form.ledgerState.write Sample.ledger).compact =
        .ok Sample.ledger := by
  have hkeyed : Sample.ledger.Keyed := by decide
  exact ⟨hkeyed, text_is_read_back.1 Sample.marked hkeyed,
    text_is_read_back.2.1 Sample.ledger hkeyed⟩

end NextLedger
