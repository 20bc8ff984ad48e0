import NextLedger.Json
import NextLedger.LogFormat
import NextLedger.Network
import NextLedger.Policy

/-!
# Configurations

What an operator decides: the network, the privileged accounts, and how the node writes its log.
Unless the operator says otherwise, a node is on its developer's own network, privileges nobody and
logs for people.
-/

namespace NextLedger

/-- The privileged accounts as an operator writes them down. -/
structure WhitelistSettings where
  holder : Option AccountId
  /-- In the order in which they were written, repetitions included. -/
  accounts : List AccountId
  reservePercent : UInt32
deriving DecidableEq

namespace WhitelistSettings

/-- Nobody is privileged. -/
def default : WhitelistSettings := ⟨none, [], 5⟩

/-- The whitelist that the settings describe. -/
def toWhitelist (w : WhitelistSettings) : Whitelist :=
  .ofList w.holder w.accounts w.reservePercent

/-- The JSON form of the settings. A holder is written only if there is one. -/
def toJson (w : WhitelistSettings) : Json :=
  .record
    ((w.holder.map fun a => ("holder", Json.text a.toHex)).toList ++
      [("accounts", .list (w.accounts.map fun a => .text a.toHex)),
        ("reserve_percent", .int w.reservePercent.toNat)])

end WhitelistSettings

/-- A configuration. -/
structure Config where
  network : Network
  whitelist : WhitelistSettings
  logFormat : LogFormat
  logLevel : String
deriving DecidableEq

namespace Config

/-- What holds unless the operator says otherwise. -/
def default : Config := ⟨.dev, .default, .human, "info"⟩

/-- The JSON form of a configuration. -/
def toJson (c : Config) : Json :=
  .record [("network", .text c.network.name), ("whitelist", c.whitelist.toJson),
    ("log_format", .text c.logFormat.name), ("log_level", .text c.logLevel)]

end Config

end NextLedger
