import NextLedger.Text.LowerCase

/-!
# Log formats

How a node writes its log: for people, or one JSON object a line.
-/

namespace NextLedger

/-- A log format. -/
inductive LogFormat
  | human
  | json
deriving DecidableEq

namespace LogFormat

/-- The formats, in the order of their numbers on the wire. -/
def all : List LogFormat := [.human, .json]

/-- The name of a format. -/
def name : LogFormat → String
  | .human => "human"
  | .json => "json"

/-- The format of an exact name. -/
def ofName? (s : String) : Option LogFormat := all.find? (·.name = s)

/-- The text that names no format, in lower case. -/
structure Unknown where
  name : String
deriving DecidableEq

/-- The fault as a sentence. -/
def Unknown.message (u : Unknown) : String :=
  s!"unknown log format `{u.name}` (expected `human` or `json`)"

/-- The format that a person names, in letters of either case. -/
def parse (s : String) : Except Unknown LogFormat :=
  let lowered := lowerCase s
  match ofName? lowered with
  | some f => .ok f
  | none => .error ⟨lowered⟩

@[simp] theorem ofName?_name (f : LogFormat) : ofName? f.name = some f := by
  cases f <;> decide

end LogFormat

end NextLedger
