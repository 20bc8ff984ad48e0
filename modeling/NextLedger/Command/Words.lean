import NextLedger.Command

/-!
# The words of a command line

Settings come before the name of the command and may also come from **variables** of the
environment, which count only where no option is given. An option takes the next word, unless that
looks like an option itself, or what follows an equals sign. No option may be repeated. After a
double dash every word stands for itself.

A value that is a word of its own is **held**: whether it is good is decided when the next option
comes, or else after the words of the command. So a request for help that comes with the command is
heard even if the value held is not good.
-/

namespace NextLedger

namespace Command

/-- What a command takes. -/
structure Shape where
  takesBundle : Bool
  takesOut : Bool
deriving DecidableEq

/-- What help is about. -/
inductive Topic
  /-- All commands. -/
  | general
  /-- Asking for help. -/
  | help
  | command (name : String) (shape : Shape)
deriving DecidableEq

end Command

/-- Why words do not name a command. -/
inductive Stop
  /-- The words are not understood. -/
  | usage
  /-- The words ask for help. -/
  | help (topic : Command.Topic)
deriving DecidableEq

namespace Command

/-- What a word of a command line looks like. -/
inductive Word
  | plain (text : String)
  /-- A double dash. -/
  | ending
  /-- A double dash and a name, with the value after the equals sign if there is one. -/
  | long (name : String) (value : Option String)
  /-- A dash and letters. -/
  | short (letters : List Char)
deriving DecidableEq

/-- The look of a word. A lone dash is plain. -/
def Word.ofString (s : String) : Word :=
  match s.toList with
  | ['-'] => .plain s
  | ['-', '-'] => .ending
  | '-' :: '-' :: cs =>
    let value :=
      match cs.dropWhile (· != '=') with
      | [] => none
      | _ :: v => some (String.ofList v)
    .long (String.ofList (cs.takeWhile (· != '='))) value
  | '-' :: cs => .short cs
  | _ => .plain s

/-- Whether a word asks for help. -/
def Word.asksForHelp : Word → Bool
  | .long "help" none => true
  | .short ('h' :: _) => true
  | _ => false

/-- The value of an option and the words after it, from what is attached to the option or else from
the next word. -/
def takeValue (attached : Option String) (words : List String) : Option (String × List String) :=
  match attached, words with
  | some v, words => some (v, words)
  | none, [] => none
  | none, word :: words =>
    match Word.ofString word with
    | .plain v => some (v, words)
    | _ => none

/-! ### Settings -/

/-- Gives a setting. Fails if there is none of the name, if it was given before, or if the value is
not good for it. -/
def give (o : Overrides) (name value : String) : Option Overrides :=
  if name = "config" then
    if o.config.isSome || value.isEmpty then none else some { o with config := some value }
  else if name = "network" then
    if o.network.isSome then none
    else (Network.parse value).toOption.map fun n => { o with network := some n }
  else if name = "log-level" then
    if o.logLevel.isSome then none else some { o with logLevel := some value }
  else if name = "log-format" then
    if o.logFormat.isSome then none
    else (LogFormat.parse value).toOption.map fun f => { o with logFormat := some f }
  else none

/-- Whether a setting has been given. -/
def isGiven (o : Overrides) (name : String) : Bool :=
  if name = "config" then o.config.isSome
  else if name = "network" then o.network.isSome
  else if name = "log-level" then o.logLevel.isSome
  else o.logFormat.isSome

/-- The variables of the environment and the settings that they stand for. -/
def settingVariables : List (String × String) :=
  [("config", "LUMEN_CONFIG"), ("network", "LUMEN_NETWORK"), ("log-level", "LUMEN_LOG_LEVEL"),
    ("log-format", "LUMEN_LOG_FORMAT")]

/-- Whether there is a setting of a name. -/
def isSetting (name : String) : Bool := settingVariables.any fun s => s.1 == name

/-- Gives the setting whose value is held, if one is. -/
def giveHeld (o : Overrides) : (held : Option (String × String)) → Option Overrides
  | none => some o
  | some (name, value) => give o name value

/-- Takes the settings that were not given from the environment. -/
def fill (environment : String → Option String) (o : Overrides) : Option Overrides :=
  settingVariables.foldlM
    (fun o (name, var) =>
      if isGiven o name then some o
      else
        match environment var with
        | none => some o
        | some value => give o name value)
    o

/-! ### Arguments of a command -/

/-- What a command has been given. -/
structure Arguments where
  bundle : Option String
  out : Option String

/-- Gives a command its bundle. -/
def Arguments.giveBundle (shape : Shape) (a : Arguments) (path : String) : Option Arguments :=
  if !shape.takesBundle || a.bundle.isSome || path.isEmpty then none
  else some { a with bundle := some path }

/-- Gives a command the path to write to. -/
def Arguments.giveOut (shape : Shape) (a : Arguments) (path : String) : Option Arguments :=
  if !shape.takesOut || a.out.isSome || path.isEmpty then none
  else some { a with out := some path }

/-- Stops for a reason unless there is a value. -/
def orStop {α : Type} (stop : Stop) : Option α → Except Stop α
  | some a => .ok a
  | none => .error stop

/-- Reads at most `fuel` words as the arguments of the command with the given name. -/
def readArguments (name : String) (shape : Shape) :
    (fuel : Nat) → Arguments → List String → Except Stop Arguments
  | _, a, [] => .ok a
  | 0, _, _ :: _ => .error .usage
  | fuel + 1, a, word :: words =>
    let look := Word.ofString word
    if look.asksForHelp then .error (.help (.command name shape))
    else
      match look with
      | .plain path => do
        let a ← orStop .usage (a.giveBundle shape path)
        readArguments name shape fuel a words
      | .ending => orStop .usage (words.foldlM (Arguments.giveBundle shape) a)
      | .long "out" attached => do
        let (path, words) ← orStop .usage (takeValue attached words)
        let a ← orStop .usage (a.giveOut shape path)
        readArguments name shape fuel a words
      | _ => .error .usage

/-- The command with a name, if it has been given all that it must have. -/
def ofArguments (name : String) (a : Arguments) : Option Command :=
  if name = "sample" then some (.sample a.out)
  else if name = "hash" then a.bundle.map .hash
  else if name = "apply-order" then a.bundle.map .applyOrder
  else if name = "check" then a.bundle.map .check
  else if name = "trim" then a.bundle.map fun bundle => .trim bundle a.out
  else none

/-- What the command with a name takes. -/
def shape? (name : String) : Option Shape :=
  if name = "sample" then some ⟨false, true⟩
  else if name = "trim" then some ⟨true, true⟩
  else if ["hash", "apply-order", "check"].contains name then some ⟨true, false⟩
  else none

/-- Reads the words from the name of a command on. -/
def readCommand (name : String) (words : List String) : Except Stop Command := do
  let shape ← orStop .usage (shape? name)
  let a ← readArguments name shape words.length ⟨none, none⟩ words
  orStop .usage (ofArguments name a)

/-- Reads the words after a request for help. -/
def readHelp : List String → Stop
  | [] => .help .general
  | ["help"] => .help .help
  | [name] =>
    match shape? name with
    | none => .usage
    | some shape => .help (.command name shape)
  | _ => .usage

/-- Reads at most `fuel` words, settings first. -/
def readWords : (fuel : Nat) → Overrides → (held : Option (String × String)) → List String →
    Except Stop Invocation
  | _, _, _, [] => .error .usage
  | 0, _, _, _ :: _ => .error .usage
  | fuel + 1, o, held, word :: words =>
    let look := Word.ofString word
    if look.asksForHelp then
      match giveHeld o held with
      | none => .error .usage
      | some _ => .error (.help .general)
    else
      match look with
      | .plain "help" => .error (readHelp words)
      | .plain name => do
        let command ← readCommand name words
        let o ← orStop .usage (giveHeld o held)
        return ⟨o, command⟩
      | .long name (some value) => do
        let o ← orStop .usage (giveHeld o held)
        let o ← orStop .usage (give o name value)
        readWords fuel o none words
      | .long name none => do
        let o ← orStop .usage (giveHeld o held)
        let (value, words) ← orStop .usage (takeValue none words)
        if isSetting name then readWords fuel o (some (name, value)) words else .error .usage
      | _ => .error .usage

end Command

namespace Invocation

/-- The invocation that words write in an environment. -/
def ofWords (environment : String → Option String) (words : List String) :
    Except Stop Invocation := do
  let i ← Command.readWords words.length ⟨none, none, none, none⟩ none words
  let o ← Command.orStop .usage (Command.fill environment i.overrides)
  return { i with overrides := o }

end Invocation

end NextLedger
