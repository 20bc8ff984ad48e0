import NextLedger.Proofs.Wire

/-!
# The wire format is exact

A form **writes back** if what it reads off the front of octets is a value that fits and that writes
just the octets taken. Together with reading back this makes a form exact: octets are read as a
value exactly if they begin with what the value writes (`decode_eq_ok_iff`). No value has two
encodings, no encoding is the beginning of another, and one that is cut short is refused
(`exists_fault_of_cut`).

All forms of what peers exchange write back. The basic ones leave a value no choice: a length, a tag
or the number of an alternative has one spelling, and so has a text. The others pass the property on
from their parts.
-/

namespace NextLedger

/-! ### Results of readers -/

section Results

variable {ε α β : Type}

/-- Two steps succeed if the first does, and the second on what it gives. -/
theorem bind_eq_ok_iff {x : Except ε α} {f : α → Except ε β} {b : β} :
    x >>= f = .ok b ↔ ∃ a, x = .ok a ∧ f a = .ok b := by
  cases x <;> simp [bind, Except.bind]

theorem map_eq_ok_iff {x : Except ε α} {f : α → β} {b : β} :
    x.map f = .ok b ↔ ∃ a, x = .ok a ∧ f a = b := by
  cases x <;> simp [Except.map]

end Results

theorem ByteVec.toBytes_of_ofBytes? {n : Nat} {bs : Bytes} {v : ByteVec n}
    (h : ofBytes? n bs = some v) : v.toBytes = bs := by
  rw [ofBytes?] at h
  split at h
  · cases h
    rfl
  · cases h

namespace Wire

namespace Form

variable {α β : Type}

/-- Whether a form takes nothing but what it writes. -/
def WritesBack (f : Form α) : Prop :=
  ∀ bs a rest, f.decode bs = .ok (a, rest) → f.Fits a ∧ bs = f.encode a ++ rest

/-- Values that stand for others write back with them. -/
theorem WritesBack.via {f : Form α} (hf : f.WritesBack) {make : α → β} {view : β → α}
    (h : ∀ a, view (make a) = a) : (f.via make view).WritesBack := by
  intro bs b rest hread
  obtain ⟨⟨a, rest'⟩, ha, heq⟩ := map_eq_ok_iff.1 hread
  obtain ⟨rfl, rfl⟩ := Prod.mk.inj heq
  simp only [Form.via, h]
  exact hf bs a rest' ha

/-- What follows a value is read from what its octets leave. -/
theorem WritesBack.exists_of_bind {f : Form α} (hf : f.WritesBack)
    {next : α × Bytes → Except Fault β} {bs : Bytes} {b : β}
    (hread : f.decode bs >>= next = .ok b) :
    ∃ a rest, f.Fits a ∧ bs = f.encode a ++ rest ∧ next (a, rest) = .ok b := by
  obtain ⟨⟨a, rest⟩, ha, hnext⟩ := bind_eq_ok_iff.1 hread
  obtain ⟨hfits, hbs⟩ := hf bs a rest ha
  exact ⟨a, rest, hfits, hbs, hnext⟩

theorem WritesBack.and {f : Form α} {g : Form β} (hf : f.WritesBack) (hg : g.WritesBack) :
    (f.and g).WritesBack := by
  intro bs p rest hread
  obtain ⟨a, bs', hafits, rfl, hsecond⟩ := hf.exists_of_bind hread
  obtain ⟨b, bs'', hbfits, rfl, hpair⟩ := hg.exists_of_bind hsecond
  obtain ⟨rfl, rfl⟩ := Prod.mk.inj (Except.ok.inj hpair)
  exact ⟨⟨hafits, hbfits⟩, (List.append_assoc _ _ _).symm⟩

/-- As many values as were asked for are read, and they write what was taken. -/
theorem WritesBack.decodeMany {f : Form α} (hf : f.WritesBack) {n : Nat} {bs rest : Bytes}
    {as : List α} (hread : f.decodeMany n bs = .ok (as, rest)) :
    as.length = n ∧ (∀ a ∈ as, f.Fits a) ∧ bs = as.flatMap f.encode ++ rest := by
  induction n generalizing bs as with
  | zero =>
    obtain ⟨rfl, rfl⟩ := Prod.mk.inj (Except.ok.inj hread)
    simp
  | succ n ih =>
    obtain ⟨a, bs', hafits, rfl, hmany⟩ := hf.exists_of_bind hread
    obtain ⟨⟨as', bs''⟩, has, hcons⟩ := bind_eq_ok_iff.1 hmany
    obtain ⟨rfl, rfl⟩ := Prod.mk.inj (Except.ok.inj hcons)
    obtain ⟨hlength, hfits, rfl⟩ := ih has
    refine ⟨congrArg (· + 1) hlength, List.forall_mem_cons.2 ⟨hafits, hfits⟩, ?_⟩
    rw [List.flatMap_cons, List.append_assoc]

end Form

/-! ### Basic forms -/

theorem fixed_eq_ok_iff {n : Nat} {bs first rest : Bytes} :
    fixed n bs = .ok (first, rest) ↔ bs = first ++ rest ∧ first.length = n := by
  rw [fixed, ← split?_eq_some_iff]
  split <;> simp_all

theorem contents_eq_ok_iff {n : Nat} {bs body rest : Bytes} :
    contents n bs = .ok (body, rest) ↔ bs = body ++ rest ∧ body.length = n := by
  rw [contents, ← split?_eq_some_iff]
  split <;> simp_all

theorem writesBack_u8 : u8.WritesBack := by
  intro bs x rest hread
  cases bs with
  | nil => cases hread
  | cons b bs =>
    obtain ⟨rfl, rfl⟩ := Prod.mk.inj (Except.ok.inj hread)
    exact ⟨trivial, rfl⟩

theorem writesBack_u32 : u32.WritesBack := by
  intro bs x rest hread
  obtain ⟨⟨first, rest'⟩, hfirst, heq⟩ := map_eq_ok_iff.1 hread
  obtain ⟨rfl, rfl⟩ := Prod.mk.inj heq
  obtain ⟨rfl, hlength⟩ := fixed_eq_ok_iff.1 hfirst
  have hlt : Bytes.toNatLE first < 2 ^ 32 := by simpa [hlength] using Bytes.toNatLE_lt first
  refine ⟨trivial, ?_⟩
  simp only [u32]
  rw [UInt32.toNat_ofNat_of_lt' hlt, ← hlength, Bytes.ofNatLE_toNatLE]

theorem writesBack_u64 : u64.WritesBack := by
  intro bs x rest hread
  obtain ⟨⟨first, rest'⟩, hfirst, heq⟩ := map_eq_ok_iff.1 hread
  obtain ⟨rfl, rfl⟩ := Prod.mk.inj heq
  obtain ⟨rfl, hlength⟩ := fixed_eq_ok_iff.1 hfirst
  have hlt : Bytes.toNatLE first < 2 ^ 64 := by simpa [hlength] using Bytes.toNatLE_lt first
  refine ⟨trivial, ?_⟩
  simp only [u64]
  rw [UInt64.toNat_ofNat_of_lt' hlt, ← hlength, Bytes.ofNatLE_toNatLE]

theorem writesBack_i64 : i64.WritesBack := writesBack_u64.via UInt64.toUInt64_toInt64

theorem writesBack_octets (n : Nat) : (octets n).WritesBack := by
  intro bs v rest hread
  simp only [octets] at hread
  split at hread
  · cases hread
  · rename_i first rest' hsplit
    obtain ⟨rfl, rfl⟩ := Prod.mk.inj (Except.ok.inj hread)
    exact ⟨trivial, (split?_eq_some_iff.1 hsplit).1⟩

theorem writesBack_hash : hash.WritesBack := (writesBack_octets 32).via fun _ => rfl

theorem writesBack_account : account.WritesBack :=
  Form.WritesBack.via ((writesBack_octets 32).via fun _ => rfl) fun _ => rfl

theorem writesBack_hint : hint.WritesBack := (writesBack_octets 4).via fun _ => rfl

/-- A length has one spelling. -/
theorem eq_writeLength_of_readLength {n : Nat} {bs rest : Bytes}
    (hread : readLength bs = .ok (n, rest)) : n < UInt64.size ∧ bs = writeLength n ++ rest := by
  obtain ⟨⟨x, rest'⟩, hx, heq⟩ := map_eq_ok_iff.1 hread
  obtain ⟨rfl, rfl⟩ := Prod.mk.inj heq
  refine ⟨x.toNat_lt, ?_⟩
  rw [writeLength, UInt64.ofNat_toNat]
  exact (writesBack_u64 bs x rest' hx).2

/-- Contents are as long as announced. -/
theorem eq_of_readLength_contents {n : Nat} {bs bs' body rest : Bytes}
    (hlength : readLength bs = .ok (n, bs')) (hbody : contents n bs' = .ok (body, rest)) :
    n = body.length ∧ body.length < UInt64.size ∧
      bs = writeLength body.length ++ (body ++ rest) := by
  obtain ⟨hn, rfl⟩ := eq_writeLength_of_readLength hlength
  obtain ⟨rfl, rfl⟩ := contents_eq_ok_iff.1 hbody
  exact ⟨rfl, hn, rfl⟩

theorem writesBack_text : text.WritesBack := by
  intro bs s rest hread
  obtain ⟨⟨n, bs'⟩, hlength, hcontents⟩ := bind_eq_ok_iff.1 hread
  obtain ⟨⟨body, bs''⟩, hbody, htext⟩ := bind_eq_ok_iff.1 hcontents
  obtain ⟨rfl, hfits, rfl⟩ := eq_of_readLength_contents hlength hbody
  dsimp only at htext
  split at htext
  · cases htext
  · rename_i cs hdecode
    obtain ⟨rfl, rfl⟩ := Prod.mk.inj (Except.ok.inj htext)
    obtain rfl := Utf8.decode_eq_ok_iff.1 hdecode
    simp only [text, String.toList_ofList, List.append_assoc, and_true]
    exact hfits

theorem writesBack_signature : signature.WritesBack := by
  intro bs s rest hread
  obtain ⟨⟨n, bs'⟩, hlength, hcontents⟩ := bind_eq_ok_iff.1 hread
  obtain ⟨⟨body, bs''⟩, hbody, hsignature⟩ := bind_eq_ok_iff.1 hcontents
  obtain ⟨rfl, -, rfl⟩ := eq_of_readLength_contents hlength hbody
  dsimp only at hsignature
  split at hsignature
  · cases hsignature
  · rename_i v hv
    obtain ⟨rfl, rfl⟩ := Prod.mk.inj (Except.ok.inj hsignature)
    simp only [signature, ByteVec.toBytes_of_ofBytes? hv, List.append_assoc, and_true]

/-! ### Options and lists -/

theorem writesBack_option {α : Type} {f : Form α} (hf : f.WritesBack) : (option f).WritesBack := by
  intro bs o rest hread
  obtain ⟨tag, bs', -, rfl, hvalue⟩ := writesBack_u8.exists_of_bind hread
  dsimp only at hvalue
  split_ifs at hvalue with hzero hone
  · obtain ⟨rfl, rfl⟩ := Prod.mk.inj (Except.ok.inj hvalue)
    rw [hzero]
    exact ⟨fun a ha => absurd ha (Option.not_mem_none a), rfl⟩
  · obtain ⟨a, bs'', hfits, rfl, hsome⟩ := hf.exists_of_bind hvalue
    obtain ⟨rfl, rfl⟩ := Prod.mk.inj (Except.ok.inj hsome)
    rw [hone]
    exact ⟨fun b hb => Option.some.inj hb ▸ hfits, rfl⟩

theorem writesBack_list {α : Type} {f : Form α} (hf : f.WritesBack) : (list f).WritesBack := by
  intro bs as rest hread
  obtain ⟨⟨n, bs'⟩, hlength, hmany⟩ := bind_eq_ok_iff.1 hread
  obtain ⟨hn, rfl⟩ := eq_writeLength_of_readLength hlength
  obtain ⟨rfl, hfits, rfl⟩ := hf.decodeMany hmany
  simp only [list, List.append_assoc, and_true]
  exact ⟨hn, hfits⟩

/-! ### Transactions and sets -/

theorem writesBack_transfer : transfer.WritesBack := writesBack_account.and writesBack_i64

theorem writesBack_operation : operation.WritesBack := by
  intro bs op rest hread
  obtain ⟨kind, bs', -, rfl, hfields⟩ := writesBack_u32.exists_of_bind hread
  dsimp only at hfields
  refine ⟨trivial, ?_⟩
  split_ifs at hfields with hcreate hpay hbump
  · obtain ⟨fields, bs'', -, rfl, hop⟩ := writesBack_transfer.exists_of_bind hfields
    obtain ⟨rfl, rfl⟩ := Prod.mk.inj (Except.ok.inj hop)
    simp only [hcreate, operation, List.append_assoc]
  · obtain ⟨fields, bs'', -, rfl, hop⟩ := writesBack_transfer.exists_of_bind hfields
    obtain ⟨rfl, rfl⟩ := Prod.mk.inj (Except.ok.inj hop)
    simp only [hpay, operation, List.append_assoc]
  · obtain ⟨bumpTo, bs'', -, rfl, hop⟩ := writesBack_i64.exists_of_bind hfields
    obtain ⟨rfl, rfl⟩ := Prod.mk.inj (Except.ok.inj hop)
    simp only [hbump, operation, List.append_assoc]

theorem writesBack_transaction : transaction.WritesBack :=
  (writesBack_account.and (writesBack_u32.and (writesBack_i64.and
    ((writesBack_option writesBack_text).and (writesBack_list writesBack_operation))))).via
      fun _ => rfl

theorem writesBack_envelope : envelope.WritesBack :=
  (writesBack_transaction.and (writesBack_list
    ((writesBack_hint.and writesBack_signature).via fun _ => rfl))).via fun _ => rfl

theorem writesBack_envelopeSet : envelopeSet.WritesBack :=
  (writesBack_hash.and (writesBack_list writesBack_envelope)).via fun _ => rfl

/-! ### Exactness -/

namespace Form

variable {α : Type}

/-- Whether a form reads back and writes back. -/
structure Exact (f : Form α) : Prop where
  readsBack : f.ReadsBack
  writesBack : f.WritesBack

variable {f : Form α}

/-- Octets are read as a value exactly if they begin with what it writes. -/
theorem Exact.decode_eq_ok_iff (hf : f.Exact) {bs rest : Bytes} {a : α} :
    f.decode bs = .ok (a, rest) ↔ f.Fits a ∧ bs = f.encode a ++ rest := by
  constructor
  · exact hf.writesBack bs a rest
  · rintro ⟨hfits, rfl⟩
    exact hf.readsBack a rest hfits

/-- The same for readers that ignore what follows. -/
theorem Exact.map_fst_decode_eq_ok_iff (hf : f.Exact) {bs : Bytes} {a : α} (ha : f.Fits a) :
    (f.decode bs).map (·.1) = .ok a ↔ ∃ rest, bs = f.encode a ++ rest := by
  rw [map_eq_ok_iff]
  constructor
  · rintro ⟨⟨a', rest⟩, hread, rfl⟩
    exact ⟨rest, (hf.decode_eq_ok_iff.1 hread).2⟩
  · rintro ⟨rest, rfl⟩
    exact ⟨(a, rest), hf.readsBack a rest ha, rfl⟩

/-- **No encoding is the beginning of another**: two values that write the same octets, each
followed by something, are one value, followed by the same. -/
theorem ReadsBack.append_inj (hf : f.ReadsBack) {a b : α} {rest rest' : Bytes} (ha : f.Fits a)
    (hb : f.Fits b) (h : f.encode a ++ rest = f.encode b ++ rest') : a = b ∧ rest = rest' := by
  have hread := hf a rest ha
  rw [h, hf b rest' hb] at hread
  simpa [eq_comm] using hread

/-- An encoding that is cut short is refused. -/
theorem Exact.exists_fault_of_cut (hf : f.Exact) {a : α} (ha : f.Fits a) {bs : Bytes}
    (hcut : bs <+: f.encode a) (hne : bs ≠ f.encode a) :
    ∃ fault, (f.decode bs).map (·.1) = .error fault := by
  rcases hread : f.decode bs with fault | ⟨b, rest⟩
  · exact ⟨fault, rfl⟩
  · -- What is read writes part of the encoding of `a`, so it is `a`, and nothing was cut.
    exfalso
    obtain ⟨hb, rfl⟩ := hf.decode_eq_ok_iff.1 hread
    obtain ⟨missing, hmissing⟩ := hcut
    rw [List.append_assoc, ← List.append_nil (f.encode a)] at hmissing
    obtain ⟨rfl, hnil⟩ := hf.readsBack.append_inj hb ha hmissing
    rw [(List.append_eq_nil_iff.1 hnil).1, List.append_nil] at hne
    exact hne rfl

end Form

theorem exact_envelope : envelope.Exact := ⟨readsBack_envelope, writesBack_envelope⟩

theorem exact_envelopeSet : envelopeSet.Exact := ⟨readsBack_envelopeSet, writesBack_envelopeSet⟩

/-- **The wire format is exact and delimits itself.** Octets are read as a set exactly if they are
its octets, followed by anything; likewise for an envelope. An encoding that is cut short anywhere
is refused. Whatever is read writes the octets that were taken. A set in any order that is sent to
a peer arrives with its previous hash and its full hashes in that order, whichever network the peer
is on. Lengths have to fit eight octets. -/
theorem reads_exactly_what_is_written (network : Hash256) (s : EnvelopeSet) (e : Envelope)
    (t : TxSet) (hs : envelopeSet.Fits s) (he : envelope.Fits e)
    (ht : envelopeSet.Fits t.toEnvelopes) :
    (∀ bs, EnvelopeSet.ofBytes bs = .ok s ↔ ∃ rest, bs = s.toBytes ++ rest) ∧
    (∀ bs, Envelope.ofBytes bs = .ok e ↔ ∃ rest, bs = e.toBytes ++ rest) ∧
    (∀ bs, bs <+: s.toBytes → bs ≠ s.toBytes → ∃ fault, EnvelopeSet.ofBytes bs = .error fault) ∧
    (∀ bs, bs <+: e.toBytes → bs ≠ e.toBytes → ∃ fault, Envelope.ofBytes bs = .error fault) ∧
    (∀ bs s' rest, envelopeSet.decode bs = .ok (s', rest) →
      envelopeSet.Fits s' ∧ s'.toBytes ++ rest = bs) ∧
    (∀ bs e' rest, envelope.decode bs = .ok (e', rest) →
      envelope.Fits e' ∧ e'.toBytes ++ rest = bs) ∧
    ∃ received, TxSet.ofBytes network t.toBytes = .ok received ∧
      received.previous = t.previous ∧
      received.transactions.map Frame.fullHash = t.transactions.map Frame.fullHash := by
  refine ⟨fun bs => exact_envelopeSet.map_fst_decode_eq_ok_iff hs,
    fun bs => exact_envelope.map_fst_decode_eq_ok_iff he,
    fun bs => exact_envelopeSet.exists_fault_of_cut hs,
    fun bs => exact_envelope.exists_fault_of_cut he, fun bs s' rest hread => ?_,
    fun bs e' rest hread => ?_, _, TxSet.ofBytes_toBytes_of_fits network ht, rfl, ?_⟩
  · exact (writesBack_envelopeSet bs s' rest hread).imp_right Eq.symm
  · exact (writesBack_envelope bs e' rest hread).imp_right Eq.symm
  · simp only [TxSet.ofEnvelopes, TxSet.ofFrames, TxSet.toEnvelopes, List.map_map]
    refine List.map_congr_left fun f _ => ?_
    rw [f.fullHash_eq, f.encoded_eq]
    rfl

/-- An envelope with a text of more octets than characters, an operation of every kind and two
signatures. -/
def Sample.varied : Envelope :=
  ⟨⟨⟨⟨.fill 32 1⟩⟩, 300, 7, some "für", [.createAccount ⟨⟨.fill 32 2⟩⟩ 10,
    .payment ⟨⟨.fill 32 3⟩⟩ (-4), .bumpSequence 9]⟩,
    [⟨⟨.fill 4 1⟩, ⟨.fill 64 5⟩⟩, ⟨⟨.fill 4 2⟩, ⟨.fill 64 6⟩⟩]⟩

/-- The case of a set that holds one envelope twice. -/
theorem exact_on_varied :
    let s : EnvelopeSet := ⟨.zero, [Sample.varied, Sample.varied]⟩
    envelopeSet.Fits s ∧ EnvelopeSet.ofBytes (s.toBytes ++ [7]) = .ok s ∧
      ∃ fault, EnvelopeSet.ofBytes (s.toBytes.take 100) = .error fault := by
  intro s
  have hvaried : envelope.Fits Sample.varied := by
    refine ⟨⟨trivial, trivial, trivial, ?_, ?_⟩, ?_⟩
    · rintro text ⟨⟩
      exact (by decide : (Utf8.encode "für".toList).length < UInt64.size)
    · exact ⟨(by decide : 3 < UInt64.size), fun _ _ => trivial⟩
    · exact ⟨(by decide : 2 < UInt64.size), fun _ _ => ⟨trivial, trivial⟩⟩
  have hs : envelopeSet.Fits s := by
    refine ⟨trivial, (by decide : 2 < UInt64.size), fun e he => ?_⟩
    rcases List.mem_cons.1 he with rfl | he
    · exact hvaried
    · rwa [List.mem_singleton.1 he]
  obtain ⟨hset, -, hcut, -⟩ := reads_exactly_what_is_written .zero s Sample.varied
    (.ofEnvelopes .zero s) hs hvaried hs
  exact ⟨hs, (hset _).2 ⟨[7], rfl⟩, hcut _ (List.take_prefix 100 _) (by decide)⟩

end Wire

end NextLedger
