import NextLedger.Config
import NextLedger.Toml.Reader

/-!
# The TOML form of configurations

Reading is lenient: members that are missing have their defaults, others are passed over, a name may
be given as a table with that name as its only member and nothing in it, and the whitelist may be
given as the array of its members' values in order. Writing names every member; only a holder that
does not exist is left out.
-/

namespace NextLedger

namespace Config

open Toml (Value Members quote)

/-! ### Reading -/

/-- Whether a value is an array or a table with nothing in it. -/
def isNothing : Value → Bool
  | .array [] => true
  | .inline [] => true
  | .table _ [] => true
  | _ => false

/-- One of a few values, by its name. -/
def readNamed {α : Type} (find : String → Option α) : Value → Option α
  | .text s => find s
  | .inline [(name, v)] => if isNothing v then find name else none
  | .table _ [(name, v)] => if isNothing v then find name else none
  | _ => none

/-- A text. -/
def readText : Value → Option String
  | .text s => some s
  | _ => none

/-- An account identifier. -/
def readAccount : Value → Option AccountId
  | .text s => (AccountId.ofHex s).toOption
  | _ => none

/-- A list of account identifiers. -/
def readAccounts : Value → Option (List AccountId)
  | .array items => items.mapM readAccount
  | _ => none

/-- A share in percent, which may be beyond a hundred. -/
def readShare : Value → Option UInt32
  | .integer n => if 0 ≤ n ∧ n.toNat < UInt32.size then some (UInt32.ofNat n.toNat) else none
  | _ => none

/-- A value that may be missing. -/
def orDefault {α : Type} (read : Value → Option α) (default : α) : Option Value → Option α
  | none => some default
  | some v => read v

/-- The whitelist of the values of its members, as far as they are there. -/
def readMembers (holder accounts share : Option Value) : Option WhitelistSettings := do
  let holder ← orDefault (fun v => (readAccount v).map some) WhitelistSettings.default.holder holder
  let accounts ← orDefault readAccounts WhitelistSettings.default.accounts accounts
  let share ← orDefault readShare WhitelistSettings.default.reservePercent share
  return ⟨holder, accounts, share⟩

/-- The whitelist of a table. -/
def readTable (ms : Members) : Option WhitelistSettings :=
  readMembers (ms.lookup "holder") (ms.lookup "accounts") (ms.lookup "reserve_percent")

/-- A whitelist. A time has none of the members and stands for the defaults. -/
def readWhitelist : Value → Option WhitelistSettings
  | .inline ms => readTable ms
  | .table _ ms => readTable ms
  | .array items => readMembers items[0]? items[1]? items[2]?
  | .time => some .default
  | _ => none

/-- The configuration of the table that a document writes. -/
def ofMembers (ms : Members) : Option Config := do
  let network ← orDefault (readNamed Network.ofName?) default.network (ms.lookup "network")
  let whitelist ← orDefault readWhitelist default.whitelist (ms.lookup "whitelist")
  let logFormat ← orDefault (readNamed LogFormat.ofName?) default.logFormat (ms.lookup "log_format")
  let logLevel ← orDefault readText default.logLevel (ms.lookup "log_level")
  return ⟨network, whitelist, logFormat, logLevel⟩

/-- The configuration that a document writes. -/
def ofToml (s : String) : Option Config := do
  let ms ← Toml.ofText s
  ofMembers ms

/-! ### Writing -/

/-- A line that assigns a value. -/
def line (name : String) (value : List Char) : List Char :=
  name.toList ++ (' ' :: '=' :: ' ' :: (value ++ ['\n']))

/-- An item of an array, on a line of its own. -/
def itemLine (s : String) : List Char := ' ' :: ' ' :: ' ' :: ' ' :: (quote s ++ [',', '\n'])

/-- An array of texts. Two or more stand on a line each. -/
def textArray : List String → List Char
  | [] => ['[', ']']
  | [s] => '[' :: (quote s ++ [']'])
  | items => '[' :: '\n' :: (items.flatMap itemLine ++ [']'])

/-- A line with the header of a table. -/
def headerLine (name : String) : List Char := '[' :: (name.toList ++ [']', '\n'])

/-- The lines of the whitelist. -/
def whitelistLines (w : WhitelistSettings) : List Char :=
  headerLine "whitelist" ++
    ((w.holder.toList.flatMap fun a => line "holder" (quote a.toHex)) ++
      (line "accounts" (textArray (w.accounts.map AccountId.toHex)) ++
        line "reserve_percent" (Nat.toDigits 10 w.reservePercent.toNat)))

/-- The document of a configuration. -/
def toToml (c : Config) : String :=
  String.ofList
    (line "network" (quote c.network.name) ++
      (line "log_format" (quote c.logFormat.name) ++
        (line "log_level" (quote c.logLevel) ++ ('\n' :: whitelistLines c.whitelist))))

end Config

end NextLedger
