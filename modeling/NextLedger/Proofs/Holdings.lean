import NextLedger.Proofs.History
import NextLedger.Proofs.Json.Bundles

/-!
# What a ledger state holds

The **record** of a ledger state is the list of all accounts that were ever listed for it or put
into it, in order. A state that starts empty, at genesis or from a text, and is then asked to take
accounts and to close, **holds** its record: every account is under its own identifier, and an
identifier leads to the last account of the record that has it, or to none (`Holds`). Taking an
account adds it to the record, and closing leaves both as they are, so one lemma about a request and
an induction over the requests carry this through a whole run (`Holds.serveAll`).

The text of a state does not give the identifiers under which accounts are held. It is read as a
list, and the list is the record of the state that comes of it; of two accounts with one identifier
the later one counts, as it does for accounts that are put one after the other.
-/

namespace NextLedger

/-- The account that a record gives for an identifier: the last one that has it. -/
def latest (record : List AccountEntry) (a : AccountId) : Option AccountEntry :=
  record.reverse.find? fun entry => entry.id = a

theorem latest_append_singleton (record : List AccountEntry) (entry : AccountEntry)
    (a : AccountId) :
    latest (record ++ [entry]) a = if entry.id = a then some entry else latest record a := by
  rw [latest, List.reverse_append, List.reverse_singleton, List.singleton_append, List.find?_cons]
  by_cases h : entry.id = a <;> simp [h, latest]

theorem id_of_latest {record : List AccountEntry} {a : AccountId} {entry : AccountEntry}
    (h : latest record a = some entry) : entry.id = a := by
  simpa using List.find?_some h

/-- The account that a request puts into the ledger, if it does. -/
def Request.entry? : Request → Option AccountEntry
  | .put entry => some entry
  | .close _ _ => none

/-- What is among the entries of a map is found under its key. -/
theorem AccountMap.get?_of_mem {ν : Type} {m : AccountMap ν} {p : AccountId × ν}
    (h : p ∈ m.entries) : m.get? p.1 = some p.2 := by
  obtain ⟨q, hfind⟩ : ∃ q, m.entries.find? (fun q => decide (q.1 = p.1)) = some q :=
    Option.isSome_iff_exists.1 (List.find?_isSome.2 ⟨p, h, by simp⟩)
  -- No two entries have one key.
  obtain rfl : q = p := List.inj_on_of_nodup_map m.nodup_map_fst
    (List.mem_of_find?_eq_some hfind) h (by simpa using List.find?_some hfind)
  rw [get?, hfind, Option.map_some]

namespace LedgerState

/-- Whether a state holds the accounts of a record. -/
structure Holds (s : LedgerState) (record : List AccountEntry) : Prop where
  /-- Every account is under its own identifier. -/
  keyed : s.Keyed
  /-- An identifier leads to the last account of the record that has it. -/
  get? : ∀ a, s.accounts.get? a = latest record a

/-! ### Requests -/

theorem holds_ofClosed (closed : ClosedLedger) : (ofClosed closed).Holds [] :=
  ⟨keyed_ofClosed closed, fun _ => rfl⟩

variable {s : LedgerState} {record : List AccountEntry}

theorem Holds.put (h : s.Holds record) (entry : AccountEntry) :
    (s.put entry).Holds (record ++ [entry]) where
  keyed := h.keyed.put entry
  get? a := by
    rw [latest_append_singleton, ← h.get? a]
    exact AccountMap.get?_insert s.accounts entry.id a entry

/-- A request adds what it puts to the record. Closing touches no account, whether it succeeds or
fails. -/
theorem Holds.serve (h : s.Holds record) (r : Request) :
    (s.serve r).Holds (record ++ r.entry?.toList) := by
  cases r with
  | put entry => exact h.put entry
  | close setHash closeTime =>
    rw [Request.entry?, Option.toList_none, List.append_nil, LedgerState.serve]
    obtain ⟨-, herror⟩ | ⟨-, d, hok, -⟩ := s.close_cases setHash closeTime
    · rw [herror]
      exact h
    · rw [hok]
      exact ⟨h.keyed, h.get?⟩

/-- **A run of requests** adds all that it puts to the record. -/
theorem Holds.serveAll (h : s.Holds record) (rs : List Request) :
    (s.serveAll rs).Holds (record ++ rs.filterMap Request.entry?) := by
  induction rs generalizing s record with
  | nil => simpa [LedgerState.serveAll] using h
  | cons r rs ih =>
    have hrest := ih (h.serve r)
    rw [List.append_assoc] at hrest
    cases hentry : r.entry? <;> simpa [hentry, LedgerState.serveAll] using hrest

theorem Holds.foldl_put (h : s.Holds record) (entries : List AccountEntry) :
    (entries.foldl LedgerState.put s).Holds (record ++ entries) := by
  induction entries generalizing s record with
  | nil => simpa using h
  | cons entry entries ih => simpa using ih (h.put entry)

/-- A state that is made of a list of accounts has the list as its record. -/
theorem holds_ofEntries (closed : ClosedLedger) (entries : List AccountEntry) :
    (ofEntries closed entries).Holds entries := by
  rw [ofEntries_eq_foldl_put]
  exact (holds_ofClosed closed).foldl_put entries

/-! ### Loading and listing -/

/-- Loading gives the last account of the record, or there is none. -/
theorem Holds.load_cases (h : s.Holds record) (a : AccountId) :
    (∃ entry, s.load a = .ok entry ∧ entry.id = a ∧ latest record a = some entry) ∨
      (s.load a = .error (.notFound a.toHex) ∧ ∀ entry ∈ record, entry.id ≠ a) := by
  rw [load, h.get? a]
  cases hlatest : latest record a with
  | some entry => exact .inl ⟨entry, rfl, id_of_latest hlatest, rfl⟩
  | none => exact .inr ⟨rfl, by simpa [latest] using hlatest⟩

/-- The accounts of a state whose accounts are under their own identifiers are listed in strictly
ascending order. -/
theorem Keyed.ascending_values (h : s.Keyed) :
    (s.accounts.values.map AccountEntry.id).Pairwise (· < ·) := by
  have hids : s.accounts.values.map AccountEntry.id = s.accounts.entries.map Prod.fst := by
    rw [AccountMap.values, List.map_map]
    exact List.map_congr_left h
  rw [hids, List.pairwise_map]
  exact s.accounts.ascending

/-- What is listed is what can be loaded. -/
theorem Keyed.mem_values_iff (h : s.Keyed) {entry : AccountEntry} :
    entry ∈ s.accounts.values ↔ s.load entry.id = .ok entry := by
  refine ⟨fun hmem => ?_, mem_values_of_load⟩
  obtain ⟨p, hp, rfl⟩ := List.mem_map.1 hmem
  rw [load, h p hp, AccountMap.get?_of_mem hp]

end LedgerState

/-! ### Texts -/

namespace Json

/-- The accounts that are listed at the front of a text, if a ledger state stands there. -/
def listedAccounts (cs : List Char) : List AccountEntry :=
  match Form.ledgerListing.read cs with
  | .ok ((_, entries), _) => entries
  | .error _ => []

/-- A state is read by reading its listing. -/
theorem read_ledgerState (cs : List Char) :
    Form.ledgerState.read cs =
      (Form.ledgerListing.read cs).map fun p => (.ofEntries p.1.1 p.1.2, p.2) := by
  change Reader.map _ Form.ledgerListing.read cs = _
  rw [Reader.map]
  rcases Form.ledgerListing.read cs with _ | ⟨p, rest⟩ <;> rfl

/-- A state that is read is made of the accounts that are listed. -/
theorem exists_listing_of_read {cs rest : List Char} {s : LedgerState}
    (h : Form.ledgerState.read cs = .ok (s, rest)) :
    ∃ closed, s = .ofEntries closed (listedAccounts cs) := by
  rw [read_ledgerState] at h
  rw [listedAccounts]
  generalize Form.ledgerListing.read cs = listing at h ⊢
  rcases listing with _ | ⟨⟨closed, entries⟩, rest'⟩
  · cases h
  · cases h
    exact ⟨closed, rfl⟩

/-- Whole texts are read in the same way. -/
theorem readAll_ledgerState (t : String) :
    readAll Form.ledgerState.read t =
      (readAll Form.ledgerListing.read t).map fun p => .ofEntries p.1 p.2 := by
  simp only [readAll, read_ledgerState]
  rcases Form.ledgerListing.read t.toList with _ | ⟨p, rest⟩
  · rfl
  · simp only [bind, Except.bind, Except.map]
    split <;> rfl

end Json

/-! ### Runs -/

/-- The account that holds the whole supply at genesis. -/
def Network.rootEntry (n : Network) : AccountEntry := ⟨⟨n.rootKeyPair.key⟩, totalSupply, 0, 0⟩

/-- One account with two balances. -/
def Sample.twice : List AccountEntry := [entry, { entry with balance := 7 }]

namespace LedgerState

/-- Where a state may come from, and the accounts that were listed for it there: it has none, it is
the genesis state of a network, or it is read off the front of a text. -/
inductive Starts : LedgerState → List AccountEntry → Prop
  | ofClosed (closed : ClosedLedger) : Starts (ofClosed closed) []
  | genesis (n : Network) : Starts n.genesis [n.rootEntry]
  | read {cs rest : List Char} {s : LedgerState}
      (h : Json.Form.ledgerState.read cs = .ok (s, rest)) : Starts s (Json.listedAccounts cs)

theorem Starts.holds {s : LedgerState} {listed : List AccountEntry} (h : Starts s listed) :
    s.Holds listed := by
  cases h with
  | ofClosed closed => exact holds_ofClosed closed
  | genesis n => exact (holds_ofClosed n.genesisLedger).put n.rootEntry
  | read hread =>
    obtain ⟨closed, rfl⟩ := Json.exists_listing_of_read hread
    exact holds_ofEntries closed _

/-- Every list of accounts can be what a state starts with. -/
theorem starts_of_listing (closed : ClosedLedger) (entries : List AccountEntry)
    (layout : Json.Layout) :
    Starts (ofEntries closed entries) (Json.listedAccounts
      (Json.render layout 0 (Json.Form.ledgerListing.write (closed, entries)))) := by
  have hends : Json.Ends [] := nofun
  have hlisting := (Json.Form.readsBack_ledgerListing (closed, entries) layout 0).apply hends
  rw [List.append_nil] at hlisting
  have hread : Json.Form.ledgerState.read
      (Json.render layout 0 (Json.Form.ledgerListing.write (closed, entries))) =
        .ok (ofEntries closed entries, []) := by
    rw [Json.read_ledgerState, hlisting]
    rfl
  exact .read hread

open Json (readAll laidOut)
open Json.Form (ledgerState ledgerListing)

/-- **Accounts are held under their own identifiers.** Take a state that starts empty, at genesis or
from a text, and whatever it is asked from then on. Its record is what was listed for it and then
put, in order. Every account is under its own identifier. Loading gives the last account of the
record that has the identifier, or tells that there is none. In whatever layout the state is
written, the text lists what can be loaded, in strictly ascending order of identifiers. Moreover, a
text that lists some accounts, of which there is one for every list, is read as the state to which
putting them one by one leads, and so is the text that is then written. -/
theorem accounts_under_own_identifiers :
    (∀ s listed rs, Starts s listed →
      let t := s.serveAll rs
      let record := listed ++ rs.filterMap Request.entry?
      t.Keyed ∧
      (∀ a, (∃ entry, t.load a = .ok entry ∧ entry.id = a ∧ latest record a = some entry) ∨
        (t.load a = .error (.notFound a.toHex) ∧ ∀ entry ∈ record, entry.id ≠ a)) ∧
      ∀ layout, ∃ entries,
        readAll ledgerListing.read (laidOut layout (ledgerState.write t)) =
          .ok (t.lastClosed, entries) ∧
        (entries.map AccountEntry.id).Pairwise (· < ·) ∧
        ∀ entry, entry ∈ entries ↔ t.load entry.id = .ok entry) ∧
    ∀ closed entries,
      let s := entries.foldl put (ofClosed closed)
      (∀ layout,
        readAll ledgerListing.read (laidOut layout (ledgerListing.write (closed, entries))) =
          .ok (closed, entries)) ∧
      (∀ text, readAll ledgerListing.read text = .ok (closed, entries) →
        readAll ledgerState.read text = .ok s) ∧
      ∀ layout, readAll ledgerState.read (laidOut layout (ledgerState.write s)) = .ok s := by
  refine ⟨fun s listed rs hstart => ?_, fun closed entries => ?_⟩
  · intro t record
    have hholds : t.Holds record := hstart.holds.serveAll rs
    refine ⟨hholds.keyed, hholds.load_cases, fun layout => ⟨t.accounts.values, ?_,
      hholds.keyed.ascending_values, fun entry => hholds.keyed.mem_values_iff⟩⟩
    exact Json.readAll_laidOut (Json.Form.readsBack_ledgerListing (t.lastClosed, t.accounts.values))
      layout
  · intro s
    have hkeyed : s.Keyed := (keyed_ofClosed closed).foldl_put entries
    refine ⟨fun layout => ?_, fun text hlisted => ?_, fun layout => ?_⟩
    · exact Json.readAll_laidOut (Json.Form.readsBack_ledgerListing (closed, entries)) layout
    · rw [Json.readAll_ledgerState, hlisted, Except.map, ofEntries_eq_foldl_put]
    · exact Json.readAll_laidOut (Json.Form.readsBack_ledgerState hkeyed) layout

/-- The case of a text that lists one account twice, after a close and one more put. -/
theorem accounts_of_twice :
    let closed := Sample.ledger.lastClosed
    let listing := ledgerListing.write (closed, Sample.twice)
    let s := LedgerState.ofEntries closed Sample.twice
    let t := s.serveAll [.close .zero 60, .put { Sample.entry with sequence := 3 }]
    Starts s (Json.listedAccounts (Json.render .indented 0 listing)) ∧ t.Keyed ∧
      readAll ledgerListing.read (laidOut .indented listing) = .ok (closed, Sample.twice) ∧
      readAll ledgerState.read (laidOut .indented listing) =
        .ok (Sample.twice.foldl put (ofClosed closed)) := by
  intro closed listing s t
  have hstart := starts_of_listing closed Sample.twice .indented
  obtain ⟨hruns, hlists⟩ := accounts_under_own_identifiers
  obtain ⟨hlisted, hread, -⟩ := hlists closed Sample.twice
  exact ⟨hstart, (hruns s _ _ hstart).1, hlisted .indented, hread _ (hlisted .indented)⟩

end LedgerState

end NextLedger
