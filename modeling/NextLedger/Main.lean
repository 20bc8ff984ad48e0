import NextLedger.Command.Help
import NextLedger.Command.Run

/-!
# The command line

The program itself: it reads the environment, the words and the files, and shows what the invocation
has to show.
-/

namespace NextLedger

/-- The contents of a file, unless it cannot be read as text. -/
def readText? (path : String) : IO (Option String) := do
  try
    return some (← IO.FS.readFile path)
  catch _ =>
    return none

/-- The values of the variables that are set. -/
def readVariables : IO (List (String × String)) := do
  let values ← Command.settingVariables.mapM fun (_, var) => do
    return (← IO.getEnv var).map fun value => (var, value)
  return values.filterMap id

/-- Reports a failure and returns its status. -/
def report (f : Failure) : IO UInt32 := do
  IO.eprintln f.message
  return f.status.toUInt32

/-- Shows an output. -/
def present : Output → IO UInt32
  | .print text => do
    IO.print text
    return 0
  | .write path text => do
    try
      IO.FS.writeFile path text
      return 0
    catch _ =>
      report (.writing path)

/-- Runs the invocation that the words write. -/
def start (words : List String) : IO UInt32 := do
  let values ← readVariables
  let environment (name : String) : Option String := values.lookup name
  match Invocation.ofWords environment words with
  | .error .usage =>
    IO.eprintln "Usage: lumen-txset [OPTIONS] <COMMAND>"
    return 2
  | .error (.help topic) =>
    IO.print (Command.help environment topic)
    return 0
  | .ok invocation =>
    let contents ← invocation.inputs.mapM fun path => do
      return (path, ← readText? path)
    match invocation.run fun path => (contents.lookup path).join with
    | .error failure => report failure
    | .ok output => present output

end NextLedger

/-- The program. -/
def main (words : List String) : IO UInt32 := NextLedger.start words
