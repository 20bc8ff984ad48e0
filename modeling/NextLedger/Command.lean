import NextLedger.LogFormat
import NextLedger.Network
import NextLedger.TxSet.Fault

/-!
# Commands

What an operator can ask of the command line: to write a demonstration bundle, and to hash, order,
check or repair the set of a bundle in a file. Settings given with a command override those of a
configuration file.
-/

namespace NextLedger

/-- What is to be done. Paths name files; without a path to write to, text goes to the terminal. -/
inductive Command
  | sample (out : Option String)
  | hash (bundle : String)
  | applyOrder (bundle : String)
  | check (bundle : String)
  | trim (bundle : String) (out : Option String)
deriving DecidableEq

namespace Command

/-- The file that a command reads. -/
def bundle? : Command → Option String
  | .sample _ => none
  | .hash bundle => some bundle
  | .applyOrder bundle => some bundle
  | .check bundle => some bundle
  | .trim bundle _ => some bundle

end Command

/-- Settings that may be given with a command. -/
structure Overrides where
  /-- The path of a configuration file. -/
  config : Option String
  network : Option Network
  logLevel : Option String
  logFormat : Option LogFormat
deriving DecidableEq

/-- A command and the settings given with it. -/
structure Invocation where
  overrides : Overrides
  command : Command
deriving DecidableEq

namespace Invocation

/-- The files that an invocation may read. -/
def inputs (i : Invocation) : List String := i.overrides.config.toList ++ i.command.bundle?.toList

end Invocation

/-- What a command has to show. -/
inductive Output
  | print (text : String)
  | write (path text : String)
deriving DecidableEq

/-- Why a command fails. -/
inductive Failure
  | config
  | reading (path : String)
  | parsing (path : String)
  | writing (path : String)
  /-- The set was checked and refused. -/
  | rejected (fault : SetFault)
  /-- The set could not be repaired. -/
  | unrepaired (fault : SetFault)
deriving DecidableEq

namespace Failure

/-- The failure as it is reported. -/
def message : Failure → String
  | .config => "Error: config error"
  | .reading path => s!"Error: reading bundle {path}"
  | .parsing path => s!"Error: parsing bundle {path}"
  | .writing path => s!"Error: writing bundle {path}"
  | .rejected fault => s!"Error: transaction set rejected\n\nCaused by:\n    {fault.message}"
  | .unrepaired fault => s!"Error: {fault.message}"

/-- Whether a number left its range, which ends the program at once. -/
def isOverflow : Failure → Bool
  | .rejected .overflow => true
  | .unrepaired .overflow => true
  | _ => false

/-- The status with which the program ends. -/
def status (f : Failure) : UInt8 := if f.isOverflow then 101 else 1

end Failure

end NextLedger
