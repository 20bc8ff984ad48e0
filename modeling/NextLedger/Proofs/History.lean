import NextLedger.Ledger.Chain
import NextLedger.Proofs.Commitment

/-!
# Histories of a ledger

A node puts accounts into its ledger and closes it, in any order, from the genesis state of its
network on. The ledgers that it closes make up a **chain**: each names the one before it, counts on
by one and keeps the parameters in force, and a close only ever fails when the count is exhausted.
Putting accounts does not touch the chain, and closing does not touch the accounts.

The name of the last ledger commits to the whole chain. A name is the digest of octets from which
the header and the set hash can be told, and the header holds the name before it. So two chains with
one last name are compared backwards, ledger by ledger, down to the two genesis ledgers, whose set
hashes stand for the networks: they have come about by the same closes on one network, or two of the
strings that were hashed are a collision (`last_name_commits_to_history`).
-/

namespace NextLedger

/-! ### Requests -/

/-- What may be asked of a ledger. -/
inductive Request
  | put (entry : AccountEntry)
  | close (setHash : Hash256) (closeTime : UInt64)

/-- A close that succeeded: what was asked for, and the ledger that came of it. -/
structure Closing where
  setHash : Hash256
  closeTime : UInt64
  ledger : ClosedLedger

/-- What was asked for. -/
def Closing.asked (k : Closing) : Hash256 × UInt64 := (k.setHash, k.closeTime)

namespace LedgerState

/-- The state after a request. A close that fails leaves it as it is. -/
def serve (s : LedgerState) : Request → LedgerState
  | .put entry => s.put entry
  | .close setHash closeTime =>
    match s.close setHash closeTime with
    | .error _ => s
    | .ok t => t

/-- The state after some requests, one after the other. -/
def serveAll (s : LedgerState) (rs : List Request) : LedgerState := rs.foldl serve s

/-- The closes among some requests that succeed, in order. -/
def closings (s : LedgerState) : List Request → List Closing
  | [] => []
  | .put entry :: rs => (s.put entry).closings rs
  | .close setHash closeTime :: rs =>
    match s.close setHash closeTime with
    | .error _ => s.closings rs
    | .ok t => ⟨setHash, closeTime, t.lastClosed⟩ :: t.closings rs

end LedgerState

/-! ### One close -/

/-- The octets of which the name of a ledger is the digest. -/
def LedgerHeader.hashed (h : LedgerHeader) (setHash : Hash256) : Bytes :=
  Wire.ledgerHeader.encode h ++ setHash.toBytes

theorem Wire.readsBack_ledgerHeader : ledgerHeader.ReadsBack :=
  (readsBack_u32.and (readsBack_hash.and (readsBack_u32.and (readsBack_u32.and
    (readsBack_u32.and readsBack_u64))))).via fun _ => rfl

/-- The octets that are hashed determine the header and the set hash. -/
theorem LedgerHeader.hashed_inj {g h : LedgerHeader} {a b : Hash256}
    (heq : g.hashed a = h.hashed b) : g = h ∧ a = b := by
  have hfits : ∀ h : LedgerHeader, Wire.ledgerHeader.Fits h :=
    fun _ => ⟨trivial, trivial, trivial, trivial, trivial, trivial⟩
  obtain ⟨hheader, hset⟩ := Wire.readsBack_ledgerHeader.append_inj (hfits g) (hfits h) heq
  exact ⟨hheader, Hash256.ext hset⟩

/-- Whether a ledger comes right after another, by closing with a set and a time. -/
structure ClosedLedger.Follows (d c : ClosedLedger) (setHash : Hash256) (closeTime : UInt64) :
    Prop where
  sequence : d.header.sequence.toNat = c.header.sequence.toNat + 1
  previous : d.header.previous = c.hash
  closeTime : d.header.closeTime = closeTime
  baseFee : d.header.baseFee = c.header.baseFee
  baseReserve : d.header.baseReserve = c.header.baseReserve
  maxSetSize : d.header.maxSetSize = c.header.maxSetSize
  hash : d.hash = sha256 (d.header.hashed setHash)

/-- **What a close does.** It fails exactly if the last sequence number has been used, and otherwise
gives a ledger that follows. -/
theorem ClosedLedger.next_cases (c : ClosedLedger) (setHash : Hash256) (closeTime : UInt64) :
    (c.header.sequence.toNat = 2 ^ 32 - 1 ∧
      c.next setHash closeTime = .error ⟨c.header.sequence⟩) ∨
    (c.header.sequence.toNat ≠ 2 ^ 32 - 1 ∧
      ∃ d, c.next setHash closeTime = .ok d ∧ d.Follows c setHash closeTime) := by
  have hsize : UInt32.size = 2 ^ 32 := rfl
  have hlt := c.header.sequence.toNat_lt
  rw [next]
  by_cases hlast : c.header.sequence.toNat + 1 = UInt32.size
  · exact .inl ⟨by omega, if_pos hlast⟩
  · refine .inr ⟨by omega, _, if_neg hlast, ?_, rfl, rfl, rfl, rfl, rfl, rfl⟩
    have hone : (1 : UInt32).toNat = 1 := rfl
    rw [UInt32.toNat_add, hone]
    omega

namespace LedgerState

/-- Closing a state closes its last ledger, and keeps the accounts. -/
theorem close_cases (s : LedgerState) (setHash : Hash256) (closeTime : UInt64) :
    (s.lastClosed.header.sequence.toNat = 2 ^ 32 - 1 ∧
      s.close setHash closeTime = .error ⟨s.lastClosed.header.sequence⟩) ∨
    (s.lastClosed.header.sequence.toNat ≠ 2 ^ 32 - 1 ∧
      ∃ d, s.close setHash closeTime = .ok { s with lastClosed := d } ∧
        d.Follows s.lastClosed setHash closeTime) := by
  rw [close]
  obtain ⟨hlast, herror⟩ | ⟨hlast, d, hok, hfollows⟩ := s.lastClosed.next_cases setHash closeTime
  · exact .inl ⟨hlast, by rw [herror, Except.map]⟩
  · exact .inr ⟨hlast, d, by rw [hok, Except.map], hfollows⟩

end LedgerState

/-! ### Chains -/

/-- The closings from genesis up to a ledger on some network. -/
inductive Network.Chain (n : Network) : List Closing → ClosedLedger → Prop
  | genesis : n.Chain [] n.genesisLedger
  | close {ks : List Closing} {c d : ClosedLedger} {setHash : Hash256} {closeTime : UInt64}
      (hks : n.Chain ks c) (hfollows : d.Follows c setHash closeTime) :
      n.Chain (ks ++ [⟨setHash, closeTime, d⟩]) d

/-- Whatever is asked of a ledger, its closes carry its chain on. -/
theorem LedgerState.chain_serveAll {n : Network} {s : LedgerState} {ks : List Closing}
    (hs : n.Chain ks s.lastClosed) (rs : List Request) :
    n.Chain (ks ++ s.closings rs) (s.serveAll rs).lastClosed := by
  induction rs generalizing s ks with
  | nil => simpa [closings, serveAll] using hs
  | cons r rs ih =>
    rw [serveAll, List.foldl_cons, ← serveAll]
    cases r with
    | put entry => exact ih (s := s.put entry) hs
    | close setHash closeTime =>
      obtain ⟨-, herror⟩ | ⟨-, d, hok, hfollows⟩ := s.close_cases setHash closeTime
      · simp only [closings, serve, herror]
        exact ih hs
      · simp only [closings, serve, hok]
        have hcons := ih (s := { s with lastClosed := d }) (hs.close hfollows)
        rwa [List.append_assoc] at hcons

namespace Network.Chain

variable {n m : Network} {ks ls : List Closing} {c d : ClosedLedger}

/-- The ledgers of a chain are numbered from one on. -/
theorem sequence_eq (h : n.Chain ks c) : c.header.sequence.toNat = 1 + ks.length := by
  induction h with
  | genesis => rfl
  | close _ hfollows ih =>
    rw [hfollows.sequence, ih, List.length_append, List.length_singleton]
    omega

/-- Every ledger of a chain names the one before it, and the last one is where the chain stands. -/
theorem linked (h : n.Chain ks c) :
    (n.genesisLedger :: ks.map Closing.ledger).IsChain (fun c d => d.header.previous = c.hash) ∧
      (n.genesisLedger :: ks.map Closing.ledger).getLast? = some c := by
  induction h with
  | genesis => exact ⟨.singleton _, rfl⟩
  | close _ hfollows ih =>
    obtain ⟨hchain, hlast⟩ := ih
    rw [List.map_append, List.map_singleton, ← List.cons_append]
    refine ⟨hchain.append (.singleton _) fun c hc d hd => ?_, List.getLast?_concat⟩
    obtain rfl : _ = c := Option.some.inj (hlast.symm.trans hc)
    obtain rfl : _ = d := Option.some.inj hd
    exact hfollows.previous

/-- The parameters in force are those of genesis throughout. -/
theorem parameters (h : n.Chain ks c) : ∀ d ∈ n.genesisLedger :: ks.map Closing.ledger,
    d.header.baseFee = genesisHeader.baseFee ∧ d.header.baseReserve = genesisHeader.baseReserve ∧
      d.header.maxSetSize = genesisHeader.maxSetSize := by
  induction h with
  | genesis => simp [genesisLedger]
  | close hks hfollows ih =>
    obtain ⟨hfee, hreserve, hsize⟩ := ih _ (List.mem_of_getLast? hks.linked.2)
    rw [List.map_append, List.map_singleton, ← List.cons_append]
    refine List.forall_mem_append.2 ⟨ih, fun d hd => ?_⟩
    rw [List.mem_singleton.1 hd]
    exact ⟨hfollows.baseFee.trans hfee, hfollows.baseReserve.trans hreserve,
      hfollows.maxSetSize.trans hsize⟩

end Network.Chain

/-! ### What the last name commits to -/

/-- The strings that are hashed when a network is set up and some ledgers are closed: the
passphrase, and what names each ledger, genesis first. -/
def Network.hashed (n : Network) (ks : List Closing) : List Bytes :=
  Utf8.encode n.passphrase.toList :: genesisHeader.hashed n.id ::
    ks.map fun k => k.ledger.header.hashed k.setHash

/-- Whether two among some strings are a collision. -/
def CollisionAmong (xs : List Bytes) : Prop := ∃ x ∈ xs, ∃ y ∈ xs, Collision x y

theorem CollisionAmong.mono {xs ys : List Bytes} (hsub : xs ⊆ ys) (h : CollisionAmong xs) :
    CollisionAmong ys := by
  obtain ⟨x, hx, y, hy, hcollision⟩ := h
  exact ⟨x, hsub hx, y, hsub hy, hcollision⟩

theorem eq_or_collisionAmong {xs : List Bytes} {x y : Bytes} (hx : x ∈ xs) (hy : y ∈ xs)
    (h : sha256 x = sha256 y) : x = y ∨ CollisionAmong xs :=
  (eq_or_collision h).imp_right fun hcollision => ⟨x, hx, y, hy, hcollision⟩

namespace Network

theorem mem_all (n : Network) : n ∈ all := by cases n <;> decide

theorem passphrase_inj {n m : Network}
    (h : Utf8.encode n.passphrase.toList = Utf8.encode m.passphrase.toList) : n = m := by
  have hall : ∀ n ∈ all, ∀ m ∈ all,
      Utf8.encode n.passphrase.toList = Utf8.encode m.passphrase.toList → n = m := by decide
  exact hall n n.mem_all m m.mem_all h

theorem hashed_subset (n : Network) (ks ls : List Closing) : n.hashed ks ⊆ n.hashed (ks ++ ls) := by
  simp only [hashed, List.map_append]
  exact List.cons_subset_cons _ (List.cons_subset_cons _ (List.subset_append_left _ _))

/-- The set hash of the last close, and the network's id before the first. -/
def lastSet (n : Network) (ks : List Closing) : Hash256 :=
  (ks.getLast?.map Closing.setHash).getD n.id

namespace Chain

variable {n m : Network} {ks ls : List Closing} {c d : ClosedLedger}

/-- The name of the last ledger is the digest of a string that was hashed. -/
theorem hash_eq (h : n.Chain ks c) :
    c.hash = sha256 (c.header.hashed (n.lastSet ks)) ∧
      c.header.hashed (n.lastSet ks) ∈ n.hashed ks := by
  cases h with
  | genesis => exact ⟨rfl, by simp [hashed, lastSet, genesisLedger]⟩
  | close _ hfollows => simp [hashed, lastSet, hfollows.hash]

/-- Two chains with one last name agree on the last ledger and its set, unless strings that were
hashed are a collision. -/
theorem header_eq_or_collisionAmong (hks : n.Chain ks c) (hls : m.Chain ls d)
    (h : c.hash = d.hash) :
    (c.header = d.header ∧ n.lastSet ks = m.lastSet ls) ∨
      CollisionAmong (n.hashed ks ++ m.hashed ls) := by
  obtain ⟨hc, hcmem⟩ := hks.hash_eq
  obtain ⟨hd, hdmem⟩ := hls.hash_eq
  rw [hc, hd] at h
  exact (eq_or_collisionAmong (List.mem_append_left _ hcmem) (List.mem_append_right _ hdmem)
    h).imp_left LedgerHeader.hashed_inj

/-- **The last name commits to the chain.** Chains with one last name are of one network and have
the same closings, or two strings that were hashed for them are a collision. -/
theorem eq_or_collisionAmong_of_hash_eq (hks : n.Chain ks c) (hls : m.Chain ls d)
    (h : c.hash = d.hash) :
    (n = m ∧ ks = ls) ∨ CollisionAmong (n.hashed ks ++ m.hashed ls) := by
  -- Backwards along the first chain. The last headers agree, and they count from one on, so the
  -- second chain is at its beginning exactly when the first one is.
  induction hks generalizing ls d with
  | genesis =>
    refine (header_eq_or_collisionAmong .genesis hls h).elim (fun ⟨hheader, hset⟩ => ?_) .inr
    have hlength : 1 = 1 + ls.length := by rw [← hls.sequence_eq, ← hheader]; rfl
    obtain rfl : ls = [] := List.eq_nil_of_length_eq_zero (by omega)
    have hpassphrase : Utf8.encode n.passphrase.toList = Utf8.encode m.passphrase.toList ∨
        CollisionAmong (n.hashed [] ++ m.hashed []) :=
      eq_or_collisionAmong (by simp [hashed]) (by simp [hashed]) hset
    exact hpassphrase.imp_left fun heq => ⟨passphrase_inj heq, rfl⟩
  | @close ks c d' setHash closeTime hks hfollows ih =>
    refine (header_eq_or_collisionAmong (hks.close hfollows) hls h).elim
      (fun ⟨hheader, hset⟩ => ?_) .inr
    have hlength := (hks.close hfollows).sequence_eq
    rw [hheader, hls.sequence_eq] at hlength
    cases hls with
    | genesis => simp at hlength
    | @close ls e d setHash' closeTime' hls hfollows' =>
      have hname : c.hash = e.hash := by
        rw [← hfollows.previous, hheader, hfollows'.previous]
      have htime : closeTime = closeTime' := by
        rw [← hfollows.closeTime, hheader, hfollows'.closeTime]
      have hset : setHash = setHash' := by simpa [lastSet] using hset
      have hledger : d' = d := by
        cases d'
        cases d
        cases h
        cases hheader
        rfl
      rcases ih hls hname with ⟨hnetwork, hclosings⟩ | hcollision
      · exact .inl ⟨hnetwork, by rw [hclosings, hset, htime, hledger]⟩
      · refine .inr (hcollision.mono (List.append_subset.2 ⟨?_, ?_⟩))
        · exact List.subset_append_of_subset_left _ (hashed_subset n ks _)
        · exact List.subset_append_of_subset_right _ (hashed_subset m ls _)

end Chain

end Network

/-! ### Runs from genesis -/

namespace Network

/-- The state of a network after some requests. -/
def after (n : Network) (rs : List Request) : LedgerState := n.genesis.serveAll rs

/-- The closes among some requests that succeed from genesis on. -/
def closings (n : Network) (rs : List Request) : List Closing := n.genesis.closings rs

theorem chain_after (n : Network) (rs : List Request) :
    n.Chain (n.closings rs) (n.after rs).lastClosed :=
  LedgerState.chain_serveAll (s := n.genesis) (.genesis : n.Chain [] n.genesisLedger) rs

/-- **The last name commits to the history.** Take two networks, and whatever is asked of each from
genesis on. After `k` closes that succeeded the last ledger has the number `1 + k`. Every ledger
names the one before it, genesis first, and all have the parameters of genesis. Putting an account
leaves the last ledger as it is, and closing leaves the accounts; a close fails exactly if the last
number has been used, and then nothing changes. If both histories end in ledgers of one name, then
the networks are the same and so are the sets and times with which ledgers were closed, or among the
strings that were hashed two are a collision. -/
theorem last_name_commits_to_history (n m : Network) (rs qs : List Request) :
    let s := n.after rs
    let ledgers := n.genesisLedger :: (n.closings rs).map Closing.ledger
    (s.lastClosed.header.sequence.toNat = 1 + (n.closings rs).length ∧
      ledgers.getLast? = some s.lastClosed ∧
      ledgers.IsChain (fun c d => d.header.previous = c.hash) ∧
      ∀ c ∈ ledgers, c.header.baseFee = genesisHeader.baseFee ∧
        c.header.baseReserve = genesisHeader.baseReserve ∧
        c.header.maxSetSize = genesisHeader.maxSetSize) ∧
    (∀ entry, (s.put entry).lastClosed = s.lastClosed) ∧
    (∀ setHash closeTime,
      (s.serve (.close setHash closeTime)).accounts = s.accounts ∧
      ((∃ fault, s.close setHash closeTime = .error fault) ↔
        s.lastClosed.header.sequence.toNat = 2 ^ 32 - 1) ∧
      (s.lastClosed.header.sequence.toNat = 2 ^ 32 - 1 →
        s.serve (.close setHash closeTime) = s)) ∧
    (s.lastClosed.hash = (m.after qs).lastClosed.hash →
      (n = m ∧ (n.closings rs).map Closing.asked = (m.closings qs).map Closing.asked) ∨
        CollisionAmong (n.hashed (n.closings rs) ++ m.hashed (m.closings qs))) := by
  intro s ledgers
  have hn : n.Chain (n.closings rs) s.lastClosed := n.chain_after rs
  refine ⟨⟨hn.sequence_eq, hn.linked.2, hn.linked.1, hn.parameters⟩, fun entry => rfl,
    fun setHash closeTime => ?_, fun hname => ?_⟩
  · obtain ⟨hlast, herror⟩ | ⟨hlast, d, hok, -⟩ := s.close_cases setHash closeTime
    · simp only [LedgerState.serve, herror, hlast, true_and, implies_true, iff_true, and_true]
      exact ⟨_, rfl⟩
    · simp only [LedgerState.serve, hok, hlast, true_and, false_implies, iff_false, and_true]
      rintro ⟨fault, herror⟩
      cases herror
  · exact (hn.eq_or_collisionAmong_of_hash_eq (m.chain_after qs) hname).imp_left
      fun ⟨hnetwork, hclosings⟩ => ⟨hnetwork, by rw [hclosings]⟩

/-- The case of two histories in which an account is put before a close and after it. -/
theorem history_of_two_orders :
    let put := Request.put Sample.entry
    let close := Request.close .zero 60
    (dev.after [put, close]).lastClosed.hash = (dev.after [close, put]).lastClosed.hash ∧
      ((dev.closings [put, close]).map Closing.asked =
          (dev.closings [close, put]).map Closing.asked ∨
        CollisionAmong (dev.hashed (dev.closings [put, close]) ++
          dev.hashed (dev.closings [close, put]))) :=
  have hname : (dev.after [.put Sample.entry, .close .zero 60]).lastClosed.hash =
      (dev.after [.close .zero 60, .put Sample.entry]).lastClosed.hash := rfl
  ⟨hname, ((last_name_commits_to_history dev dev _ _).2.2.2 hname).imp_left And.right⟩

end Network

end NextLedger
