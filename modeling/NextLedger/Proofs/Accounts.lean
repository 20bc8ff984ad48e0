import Mathlib
import NextLedger.Ledger.State

/-!
# Accounts under their own identifiers

A ledger state is **keyed** if every account is under the identifier that the account itself has.
Every state that is built from a list of accounts is keyed, because putting an account uses no other
key. A keyed state is the one built from the list of its accounts: this list is in ascending order,
so each account of it goes to the end of what was built so far.
-/

namespace NextLedger

namespace AccountMap

variable {ν : Type}

/-- A value under an account after all others goes to the end. -/
theorem insertEntry_of_lt {a : AccountId} {es : List (AccountId × ν)} (v : ν)
    (h : ∀ p ∈ es, p.1 < a) : insertEntry a v es = es ++ [(a, v)] := by
  induction es with
  | nil => rfl
  | cons e es ih =>
    have hlt : e.1 < a := h e List.mem_cons_self
    have hnlt : ¬ a < e.1 := fun h => AccountId.lt_irrefl a (AccountId.lt_trans h hlt)
    rw [insertEntry, if_neg hnlt, if_pos hlt, ih fun p hp => h p (List.mem_cons_of_mem e hp),
      List.cons_append]

end AccountMap

namespace LedgerState

/-- Whether every account is under its own identifier. -/
def Keyed (s : LedgerState) : Prop := ∀ p ∈ s.accounts.entries, p.2.id = p.1

instance (s : LedgerState) : Decidable s.Keyed :=
  inferInstanceAs (Decidable (∀ p ∈ s.accounts.entries, p.2.id = p.1))

theorem keyed_ofClosed (closed : ClosedLedger) : (ofClosed closed).Keyed := fun _ hp => by cases hp

theorem Keyed.put {s : LedgerState} (h : s.Keyed) (entry : AccountEntry) : (s.put entry).Keyed := by
  intro p hp
  rcases AccountMap.fst_mem_insertEntry hp with rfl | hp
  · rfl
  · exact h p hp

theorem Keyed.foldl_put {s : LedgerState} (h : s.Keyed) (entries : List AccountEntry) :
    (entries.foldl LedgerState.put s).Keyed :=
  List.foldlRecOn entries _ h fun _ h entry _ => h.put entry

/-- Putting accounts one by one enters each of them under its identifier. -/
theorem foldl_put (s : LedgerState) (entries : List AccountEntry) :
    entries.foldl put s =
      ⟨s.lastClosed, (entries.map fun entry => (entry.id, entry)).foldl
        (fun m e => m.insert e.1 e.2) s.accounts⟩ := by
  induction entries generalizing s with
  | nil => rfl
  | cons entry entries ih => exact ih (s.put entry)

/-- The state with some accounts comes about by putting them one by one. -/
theorem ofEntries_eq_foldl_put (closed : ClosedLedger) (entries : List AccountEntry) :
    ofEntries closed entries = entries.foldl put (ofClosed closed) :=
  (foldl_put (ofClosed closed) entries).symm

theorem keyed_ofEntries (closed : ClosedLedger) (entries : List AccountEntry) :
    (ofEntries closed entries).Keyed := by
  rw [ofEntries_eq_foldl_put]
  exact (keyed_ofClosed closed).foldl_put entries

/-- Putting accounts that come after those of a state, in ascending order, leads to the state with
all of them. -/
theorem foldl_put_of_append {es : List (AccountId × AccountEntry)} {s : LedgerState}
    {m : AccountMap AccountEntry} (hkeyed : ∀ p ∈ es, p.2.id = p.1)
    (hm : m.entries = s.accounts.entries ++ es) :
    (es.map Prod.snd).foldl LedgerState.put s = ⟨s.lastClosed, m⟩ := by
  induction es generalizing s with
  | nil =>
    have haccounts : s.accounts = m := AccountMap.ext (by rw [hm, List.append_nil])
    rw [← haccounts]
    rfl
  | cons e es ih =>
    have hkey : e.2.id = e.1 := hkeyed e List.mem_cons_self
    have hascending := m.ascending
    rw [hm] at hascending
    have hbefore : ∀ p ∈ s.accounts.entries, p.1 < e.1 := fun p hp =>
      (List.pairwise_append.1 hascending).2.2 p hp e List.mem_cons_self
    have hput : (s.put e.2).accounts.entries = s.accounts.entries ++ [e] := by
      change AccountMap.insertEntry e.2.id e.2 s.accounts.entries = _
      rw [hkey, AccountMap.insertEntry_of_lt e.2 hbefore]
    exact ih (s := s.put e.2) (fun p hp => hkeyed p (List.mem_cons_of_mem e hp))
      (by rw [hm, hput, List.append_assoc]; rfl)

/-- **A keyed state is built from its accounts.** -/
theorem Keyed.ofEntries_values {s : LedgerState} (h : s.Keyed) :
    ofEntries s.lastClosed s.accounts.values = s := by
  rw [ofEntries_eq_foldl_put]
  exact foldl_put_of_append (s := ofClosed s.lastClosed) h rfl

end LedgerState

end NextLedger
