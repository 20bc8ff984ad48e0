import NextLedger.Text.Utf8

/-!
# Control sequences

A text for a terminal may hold **control sequences**, which the terminal obeys and does not show.
Each starts with the character escape. This file reads a text as a terminal does and keeps what is
shown, so that the text can go to a file.

A **control function** ends with a letter, a **string** with the octet 0x9C, and a **command** with
a bell. Two control characters, cancel and substitute, end any sequence, and an escape starts a new
one. Of the control characters only **moves** are kept: tabs, line breaks, page breaks and carriage
returns.
-/

namespace NextLedger

namespace ControlSequence

/-- What a terminal is in the middle of. -/
inductive State
  /-- No sequence. -/
  | ground
  /-- A sequence of which only the escape has come. -/
  | opened
  /-- A short sequence, which goes on to a character that is neither a space nor a sign before the
  digits. -/
  | short
  /-- A control function, which goes on to its letter. -/
  | function
  /-- A device string of which nothing has come. -/
  | device
  /-- The parameters of a device string. -/
  | deviceParameters
  /-- The signs between the parameters and the body of a device string. -/
  | deviceSigns
  /-- The body of a string. -/
  | string
  /-- A command to the operating system. -/
  | command
deriving DecidableEq

/-- Whether an octet after the first of a character ends a string. -/
def endsString (c : Char) : Bool := (Utf8.encodeChar c).tail.contains 0x9C

/-- The sequence that the character after an escape starts. -/
def start (c : Char) : State :=
  let n := c.toNat
  if n < 0x20 || 0x7F ≤ n then .opened
  else if n < 0x30 then .short
  else if c = 'P' then .device
  else if c = '[' then .function
  else if c = ']' then .command
  else if c = 'X' || c = '^' || c = '_' then .string
  else .ground

/-- Where a character leads within a sequence, if it neither starts a new one nor ends all. -/
def follow (state : State) (c : Char) : State :=
  let n := c.toNat
  match state with
  | .ground => .ground
  | .opened => start c
  | .short => if 0x30 ≤ n && n < 0x7F then .ground else .short
  | .function => if 0x40 ≤ n && n < 0x7F then .ground else .function
  | .device =>
    if n < 0x20 || 0x7F ≤ n then .device
    else if n < 0x30 then .deviceSigns
    else if n < 0x40 then .deviceParameters
    else .string
  | .deviceParameters =>
    if n < 0x20 || 0x7F ≤ n then .deviceParameters
    else if n < 0x30 then .deviceSigns
    else if n < 0x3C then .deviceParameters
    else .string
  | .deviceSigns => if 0x30 ≤ n && n < 0x7F then .string else .deviceSigns
  | .string => if endsString c then .ground else .string
  | .command => if n = 0x07 then .ground else .command

/-- Where a character leads. -/
def next (state : State) (c : Char) : State :=
  let n := c.toNat
  if n = 0x1B then .opened
  else if n = 0x18 || n = 0x1A then .ground
  else follow state c

/-- Whether a character is a move. -/
def isMove (c : Char) : Bool := c = '\t' || c = '\n' || c = '\r' || c.toNat = 0x0C

/-- Whether a character is shown outside of sequences. -/
def isShown (c : Char) : Bool := isMove c || (0x20 ≤ c.toNat && c.toNat != 0x7F)

/-- Whether a character is shown in a state. Moves are obeyed at once unless a string or a command
takes them in. -/
def showsIn : State → Char → Bool
  | .ground, c => isShown c
  | .opened, c => isMove c
  | .short, c => isMove c
  | .function, c => isMove c
  | _, _ => false

/-- The characters that are shown. In a **run**, which any shown character starts, characters are
shown as outside of sequences. A control character that is no move ends the run, and a sequence that
a move interrupted goes on with it, unless the run showed a character beyond ASCII. -/
def shown : State → (run : Bool) → List Char → List Char
  | _, _, [] => []
  | state, true, c :: cs =>
    if isShown c then c :: shown (if c.toNat < 0x80 then state else .ground) true cs
    else shown (next state c) false cs
  | state, false, c :: cs =>
    if showsIn state c then c :: shown (next state c) true cs
    else shown (next state c) false cs

end ControlSequence

/-- What a terminal shows of a text. -/
def shownText (s : String) : String := String.ofList (ControlSequence.shown .ground false s.toList)

end NextLedger
