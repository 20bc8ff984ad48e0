import NextLedger.Bytes.Lemmas
import NextLedger.Proofs.Text.Utf8
import NextLedger.TxSet.Wire

/-!
# The wire format reads back

A form **reads back** if a value that fits is read from its octets, whatever follows them. All forms
of what peers exchange do: the basic ones by what they do to octets, the others because putting
forms together keeps the property. A set is read back with it as a whole (`readsBack_envelopeSet`).
-/

namespace NextLedger

namespace Wire

namespace Form

variable {α β : Type}

/-- Whether reading undoes writing on the values that fit. -/
def ReadsBack (f : Form α) : Prop :=
  ∀ a rest, f.Fits a → f.decode (f.encode a ++ rest) = .ok (a, rest)

/-- Values that stand for others are read back with them. -/
theorem ReadsBack.via {f : Form α} (hf : f.ReadsBack) {make : α → β} {view : β → α}
    (h : ∀ b, make (view b) = b) : (f.via make view).ReadsBack := fun b rest hb => by
  simp only [Form.via, hf (view b) rest hb, Except.map, h]

theorem ReadsBack.and {f : Form α} {g : Form β} (hf : f.ReadsBack) (hg : g.ReadsBack) :
    (f.and g).ReadsBack := fun p rest ⟨ha, hb⟩ => by
  simp only [Form.and, List.append_assoc, hf p.1 _ ha, hg p.2 rest hb, bind, Except.bind, pure,
    Except.pure]

/-- As many values as were written are read back. -/
theorem ReadsBack.decodeMany {f : Form α} (hf : f.ReadsBack) {as : List α}
    (h : ∀ a ∈ as, f.Fits a) (rest : Bytes) :
    f.decodeMany as.length (as.flatMap f.encode ++ rest) = .ok (as, rest) := by
  induction as with
  | nil => rfl
  | cons a as ih =>
    obtain ⟨ha, has⟩ := List.forall_mem_cons.1 h
    simp only [List.flatMap_cons, List.append_assoc, List.length_cons, Form.decodeMany,
      hf a _ ha, ih has, bind, Except.bind, pure, Except.pure]

end Form

/-! ### Basic forms -/

theorem split?_append (first rest : Bytes) :
    split? first.length (first ++ rest) = some (first, rest) :=
  split?_eq_some_iff.2 ⟨rfl, rfl⟩

theorem fixed_append {n : Nat} {first : Bytes} (h : first.length = n) (rest : Bytes) :
    fixed n (first ++ rest) = .ok (first, rest) := by
  subst h
  simp only [fixed, split?_append]

theorem contents_append {n : Nat} {first : Bytes} (h : first.length = n) (rest : Bytes) :
    contents n (first ++ rest) = .ok (first, rest) := by
  subst h
  simp only [contents, split?_append]

theorem readsBack_u32 : u32.ReadsBack := fun x rest _ => by
  have hx : x.toNat < 256 ^ 4 := x.toNat_lt
  simp only [u32, fixed_append (Bytes.length_ofNatLE 4 _), Except.map, Bytes.toNatLE_ofNatLE hx,
    UInt32.ofNat_toNat]

theorem readsBack_u64 : u64.ReadsBack := fun x rest _ => by
  have hx : x.toNat < 256 ^ 8 := x.toNat_lt
  simp only [u64, fixed_append (Bytes.length_ofNatLE 8 _), Except.map, Bytes.toNatLE_ofNatLE hx,
    UInt64.ofNat_toNat]

theorem readsBack_i64 : i64.ReadsBack := readsBack_u64.via Int64.toInt64_toUInt64

theorem readsBack_octets (n : Nat) : (octets n).ReadsBack := fun v rest _ => by
  have h : split? n (v.toBytes ++ rest) = some (v.toBytes, rest) :=
    split?_eq_some_iff.2 ⟨rfl, v.length_eq⟩
  simp only [octets]
  split
  · rename_i hnone
    simp [h] at hnone
  · rename_i first rest' hsome
    obtain ⟨rfl, rfl⟩ : v.toBytes = first ∧ rest = rest' := by simpa [h] using hsome
    rfl

theorem readsBack_hash : hash.ReadsBack := (readsBack_octets 32).via fun _ => rfl

theorem readsBack_account : account.ReadsBack :=
  Form.ReadsBack.via ((readsBack_octets 32).via fun _ => rfl) fun _ => rfl

theorem readsBack_hint : hint.ReadsBack := (readsBack_octets 4).via fun _ => rfl

/-- A length that fits eight octets is read back. -/
theorem readLength_writeLength {n : Nat} (h : n < UInt64.size) (rest : Bytes) :
    readLength (writeLength n ++ rest) = .ok (n, rest) := by
  simp only [readLength, writeLength, readsBack_u64 _ rest trivial, Except.map,
    UInt64.toNat_ofNat_of_lt' h]

theorem readsBack_text : text.ReadsBack := fun s rest hs => by
  simp only [text, List.append_assoc, readLength_writeLength hs, contents_append rfl,
    Utf8.decode_encode, String.ofList_toList, bind, Except.bind]

theorem readsBack_signature : signature.ReadsBack := fun s rest _ => by
  have hlength : s.bytes.toBytes.length < UInt64.size := by
    rw [s.bytes.length_eq]
    decide
  simp only [signature, List.append_assoc, readLength_writeLength hlength, contents_append rfl,
    ByteVec.ofBytes?_toBytes, bind, Except.bind]

/-! ### Options and lists -/

theorem readsBack_option {α : Type} {f : Form α} (hf : f.ReadsBack) : (option f).ReadsBack :=
  fun o rest ho => by
    cases o with
    | none => rfl
    | some a =>
      simp [option, u8, hf a rest (ho a rfl), bind, Except.bind, pure, Except.pure]

theorem readsBack_list {α : Type} {f : Form α} (hf : f.ReadsBack) : (list f).ReadsBack :=
  fun as rest ⟨hlength, has⟩ => by
    simp only [list, List.append_assoc, readLength_writeLength hlength, hf.decodeMany has, bind,
      Except.bind]

/-! ### Transactions and sets -/

theorem readsBack_transfer : transfer.ReadsBack := readsBack_account.and readsBack_i64

theorem readsBack_operation : operation.ReadsBack := fun op rest _ => by
  cases op with
  | createAccount destination startingBalance =>
    simp [operation, readsBack_u32 _ _ trivial, readsBack_transfer _ _ ⟨trivial, trivial⟩, bind,
      Except.bind, pure, Except.pure]
  | payment destination amount =>
    simp [operation, readsBack_u32 _ _ trivial, readsBack_transfer _ _ ⟨trivial, trivial⟩, bind,
      Except.bind, pure, Except.pure]
  | bumpSequence bumpTo =>
    simp [operation, readsBack_u32 _ _ trivial, readsBack_i64 _ _ trivial, bind, Except.bind, pure,
      Except.pure]

theorem readsBack_transaction : transaction.ReadsBack :=
  (readsBack_account.and (readsBack_u32.and (readsBack_i64.and
    ((readsBack_option readsBack_text).and (readsBack_list readsBack_operation))))).via fun _ => rfl

theorem readsBack_envelope : envelope.ReadsBack :=
  (readsBack_transaction.and (readsBack_list
    ((readsBack_hint.and readsBack_signature).via fun _ => rfl))).via fun _ => rfl

theorem readsBack_envelopeSet : envelopeSet.ReadsBack :=
  (readsBack_hash.and (readsBack_list readsBack_envelope)).via fun _ => rfl

end Wire

/-- **What is sent is received.** Whatever the order of a set, a peer reads its envelopes back, and
makes frames of them for its own network. -/
theorem TxSet.ofBytes_toBytes_of_fits {s : TxSet} (network : Hash256)
    (hs : Wire.envelopeSet.Fits s.toEnvelopes) :
    ofBytes network s.toBytes = .ok (ofEnvelopes network s.toEnvelopes) := by
  have hread := Wire.readsBack_envelopeSet s.toEnvelopes [] hs
  rw [List.append_nil] at hread
  simp only [ofBytes, toBytes, hread, Except.map]

end NextLedger
