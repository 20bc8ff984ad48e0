import NextLedger.Sha2.Sha256
import NextLedger.Text.LowerCase

/-!
# Networks

A node belongs to one of three networks. What is signed commits to the network's **passphrase**, so
a transaction signed for one network is never valid on another.
-/

namespace NextLedger

/-- A network. -/
inductive Network
  /-- The production network. -/
  | live
  /-- The public test network. -/
  | test
  /-- A developer's own network. -/
  | dev
deriving DecidableEq

namespace Network

/-- The networks, in the order of their numbers on the wire. -/
def all : List Network := [.live, .test, .dev]

/-- The name of a network. -/
def name : Network → String
  | .live => "live"
  | .test => "test"
  | .dev => "dev"

/-- The text that names a network in everything that is signed. -/
def passphrase : Network → String
  | .live => "Lumen Public Network ; 2024"
  | .test => "Lumen Test Network ; 2024"
  | .dev => "Lumen Development Network"

/-- The digest of the passphrase. -/
def id (n : Network) : Hash256 := sha256 (Utf8.encode n.passphrase.toList)

/-- The network of an exact name. -/
def ofName? (s : String) : Option Network := all.find? (·.name = s)

/-- The text that names no network, in lower case. -/
structure Unknown where
  name : String
deriving DecidableEq

/-- The fault as a sentence. -/
def Unknown.message (u : Unknown) : String := s!"unknown network: {u.name}"

/-- The network that a person names, in letters of either case. -/
def parse (s : String) : Except Unknown Network :=
  let lowered := lowerCase s
  match ofName? lowered with
  | some n => .ok n
  | none => .error ⟨lowered⟩

@[simp] theorem ofName?_name (n : Network) : ofName? n.name = some n := by
  cases n <;> decide

end Network

end NextLedger
