import NextLedger.Account.Map

/-!
# Privilege

**Privileged** accounts pay no fees inside a transaction set and are not ranked by what they offer.
Part of a set's capacity is reserved for the others, so that they cannot be starved. A whitelist is
a policy of this kind that an operator writes down.
-/

namespace NextLedger

/-- Who is privileged, and what is reserved for everyone else. -/
structure Policy where
  isPrivileged : AccountId → Bool
  /-- The capacity guaranteed to ordinary transactions in a set of the given capacity. -/
  reserve : Nat → Nat
  /-- The account whose transactions rank before all others of its class. -/
  holder : Option AccountId

/-- Accounts that an operator privileges. -/
structure Whitelist where
  holder : Option AccountId
  accounts : AccountMap Unit
  /-- The share of capacity, in percent, reserved for everyone else. -/
  reservePercent : UInt32
deriving DecidableEq

namespace Whitelist

/-- The whitelist without accounts. -/
def disabled : Whitelist := ⟨none, .empty, 0⟩

/-- The whitelist of a holder, some accounts and a share. -/
def ofList (holder : Option AccountId) (accounts : List AccountId) (reservePercent : UInt32) :
    Whitelist :=
  ⟨holder, .ofList (accounts.map fun a => (a, ())), reservePercent⟩

/-- Whether any account is privileged. -/
def isEnabled (w : Whitelist) : Bool := w.holder.isSome || !w.accounts.entries.isEmpty

/-- Whether an account is privileged. -/
def isPrivileged (w : Whitelist) (a : AccountId) : Bool :=
  decide (w.holder = some a) || w.accounts.contains a

/-- The number of privileged accounts. -/
def size (w : Whitelist) : Nat :=
  match w.holder with
  | none => w.accounts.size
  | some h => if w.accounts.contains h then w.accounts.size else w.accounts.size + 1

/-- The capacity reserved for everyone else: the share, at least one place and at most all. Products
stop at the greatest number of 64 bits. Without privileged accounts all capacity is reserved. -/
def reserve (w : Whitelist) (max : Nat) : Nat :=
  if w.isEnabled then
    let percent := Nat.min w.reservePercent.toNat 100
    let share := Nat.min (max * percent) (UInt64.size - 1) / 100
    Nat.min (Nat.max share 1) max
  else max

/-- The policy of a whitelist. -/
def toPolicy (w : Whitelist) : Policy := ⟨w.isPrivileged, w.reserve, w.holder⟩

end Whitelist

end NextLedger
