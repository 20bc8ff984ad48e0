import NextLedger.Bundle
import NextLedger.Command
import NextLedger.Config.Toml
import NextLedger.TxSet.Surge
import NextLedger.TxSet.Walk

/-!
# Running commands

Running a command is a function of the files that it reads. The configuration comes first: without a
good one no bundle is read.
-/

namespace NextLedger

/-- The contents of files, as far as they can be read. -/
abbrev Files := String → Option String

namespace Overrides

/-- A configuration with the settings in place of its own. -/
def apply (o : Overrides) (c : Config) : Config where
  network := o.network.getD c.network
  whitelist := c.whitelist
  logFormat := o.logFormat.getD c.logFormat
  logLevel := o.logLevel.getD c.logLevel

/-- The configuration in force. -/
def effective (o : Overrides) (files : Files) : Except Failure Config :=
  match o.config with
  | none => .ok (o.apply .default)
  | some path =>
    match (files path).bind Config.ofToml with
    | none => .error .config
    | some c => .ok (o.apply c)

end Overrides

namespace Command

/-- The bundle in a file. -/
def load (files : Files) (path : String) : Except Failure Bundle :=
  match files path with
  | none => .error (.reading path)
  | some text =>
    match Bundle.ofText text with
    | .error _ => .error (.parsing path)
    | .ok b => .ok b

/-- A bundle, on its way to a file or the terminal. -/
def deliver (b : Bundle) : Option String → Output
  | none => .print (b.toText ++ "\n")
  | some path => .write path b.toText

/-- The line about a transaction in the listing of a set. -/
def listing (f : Frame) : String := s!"{f.fullHash.toHex} {f.source.toHex} {f.sequence}\n"

/-- The bundle with its set cut down to capacity and then repaired. -/
def repair (c : Config) (b : Bundle) : Except SetFault Bundle :=
  let view := LedgerView.ofState b.ledger
  let policy := c.whitelist.toWhitelist.toPolicy
  let (_, set) := (b.txSet c.network.id).surge view policy
  match set.trim view policy () with
  | (.error fault, _) => .error fault
  | (.ok (), w) => .ok (b.withTxSet w.set)

/-- What a command has to show under a configuration. -/
def run (c : Config) (files : Files) : Command → Except Failure Output
  | .sample out => .ok (deliver (Bundle.sample c.network) out)
  | .hash path => do
    let b ← load files path
    let (h, set) := (b.txSet c.network.id).contentsHash
    return .print (h.toHex ++ "\n" ++ set.summary ++ "\n")
  | .applyOrder path => do
    let b ← load files path
    let (fs, _) := (b.txSet c.network.id).applyOrder
    return .print (String.join (fs.map listing))
  | .check path => do
    let b ← load files path
    let policy := c.whitelist.toWhitelist.toPolicy
    match (b.txSet c.network.id).check (LedgerView.ofState b.ledger) policy () with
    | (.error fault, _) => .error (.rejected fault)
    | (.ok (), _) => return .print "valid\n"
  | .trim path out => do
    let b ← load files path
    match repair c b with
    | .error fault => .error (.unrepaired fault)
    | .ok b => return deliver b out

end Command

namespace Invocation

/-- What an invocation has to show. -/
def run (i : Invocation) (files : Files) : Except Failure Output := do
  let c ← i.overrides.effective files
  i.command.run c files

end Invocation

end NextLedger
