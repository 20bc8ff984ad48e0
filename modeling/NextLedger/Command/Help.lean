import NextLedger.Command.Words
import NextLedger.Text.ControlSequence

/-!
# Help

What the command line says about itself, as a terminal shows it. Names of commands and options are
set in bold. The values of variables are part of the help, and a control sequence that one of them
leaves open goes on to the next name in bold.
-/

namespace NextLedger

namespace Command

/-- So many spaces. -/
def spaces (n : Nat) : String := String.ofList (List.replicate n ' ')

/-- A name in bold. -/
def emphasised (name : String) : String := "\x1b[1m" ++ name ++ "\x1b[0m"

/-- Lines of two columns, the first as wide as its longest entry is when it is shown. A line break
in the second column goes on in that column. -/
def columns (rows : List (String × String)) : List String :=
  let width := (rows.map fun r => (shownText r.1).length).max?.getD 0
  rows.map fun (left, right) =>
    "  " ++ left ++ spaces (width + 2 - (shownText left).length) ++
      String.intercalate ("\n" ++ spaces (width + 4)) (right.splitOn "\n")

/-- What asking for help does. -/
def helpSummary : String := "Print this message or the help of the given subcommand(s)"

/-- The commands and what they do. -/
def summaries : List (String × String) :=
  [("sample", "Write a demonstration bundle"),
    ("hash", "Print the set's contents hash and summary"),
    ("apply-order", "Print the transactions in apply order"),
    ("check", "Check the set as a peer would before applying it"),
    ("trim", "Apply surge pricing, drop invalid transactions and write the result")]

/-- The left column about an option that takes a value. -/
def optionName (name value : String) : String :=
  "    " ++ emphasised ("--" ++ name) ++ " <" ++ value ++ ">"

/-- The row about the request for help. -/
def helpRow : String × String := (emphasised "-h" ++ ", " ++ emphasised "--help", "Print help")

/-- The settings and what they mean. -/
def settingRows (environment : String → Option String) : List (String × String) :=
  let row (name value right var : String) : String × String :=
    (optionName name value,
      right ++ " [env: " ++ var ++ "=" ++ (environment var).getD "" ++ "]")
  [row "config" "CONFIG" "Path to a TOML configuration file. CLI flags and env vars override it"
      "LUMEN_CONFIG",
    row "network" "NETWORK" "Network: \"live\", \"test\" or \"dev\"" "LUMEN_NETWORK",
    row "log-level" "LOG_LEVEL" "Log level: \"trace\", \"debug\", \"info\", \"warn\", \"error\""
      "LUMEN_LOG_LEVEL",
    row "log-format" "LOG_FORMAT" "Log format: \"human\" or \"json\"" "LUMEN_LOG_FORMAT",
    helpRow]

/-- The help about all commands. -/
def generalHelp (environment : String → Option String) : List String :=
  ["Lumen transaction-set tool", "", "Usage: lumen-txset [OPTIONS] <COMMAND>", "", "Commands:"] ++
    columns ((summaries ++ [("help", helpSummary)]).map fun (name, text) =>
      (emphasised name, text)) ++
    ["", "Options:"] ++ columns (settingRows environment)

/-- The help about one command. -/
def commandHelp (name : String) (shape : Shape) : List String :=
  let out :=
    if shape.takesBundle then "Output file; the input is left untouched. Stdout if omitted"
    else "Output file; stdout if omitted"
  let usage :=
    "Usage: lumen-txset " ++ name ++ (if shape.takesOut then " [OPTIONS]" else "") ++
      (if shape.takesBundle then " <BUNDLE>" else "")
  [(summaries.lookup name).getD "", "", usage, ""] ++
    (if shape.takesBundle then ["Arguments:"] ++ columns [("<BUNDLE>", "")] ++ [""] else []) ++
    ["Options:"] ++
    columns ((if shape.takesOut then [(optionName "out" "OUT", out)] else []) ++ [helpRow])

/-- The help about asking for help. -/
def helpHelp : List String :=
  [helpSummary, "", "Usage: lumen-txset help [COMMAND]...", "", "Arguments:"] ++
    columns [("[COMMAND]...", "Print help for the subcommand(s)")]

/-- The help that was asked for. -/
def help (environment : String → Option String) (topic : Topic) : String :=
  let text :=
    match topic with
    | .general => generalHelp environment
    | .help => helpHelp
    | .command name shape => commandHelp name shape
  shownText (String.join (text.map fun line => line ++ "\n"))

end Command

end NextLedger
