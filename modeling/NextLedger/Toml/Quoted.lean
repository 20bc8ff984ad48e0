import NextLedger.Bytes.Hex
import NextLedger.Toml.Text

/-!
# TOML texts

A text is written in one of four styles. **Basic** styles stand in double quotes and have escapes;
**literal** styles stand in single quotes and have none. Either may be on one line, or between
triple quotes on several; a line break right after the opening quotes does not belong to the text.
-/

namespace NextLedger

namespace Toml

/-! ### Reading -/

/-- A number of exactly `n` hexadecimal digits, after the number `high`. -/
def hexNumber : (n high : Nat) → Reader Nat
  | 0, high, s => some (high, s)
  | _ + 1, _, [] => none
  | n + 1, high, c :: s => do
    let low ← digit? 16 c
    hexNumber n (high * 16 + low) s

/-- A character by its number in `n` hexadecimal digits. Surrogates are no characters. -/
def numberedChar (n : Nat) : Reader Char := fun s => do
  let (code, s) ← hexNumber n 0 s
  if code.isValidChar then some (Char.ofNat code, s) else none

/-- What follows a backslash. -/
def escape : Reader Char
  | 'b' :: s => some (Char.ofNat 0x08, s)
  | 't' :: s => some ('\t', s)
  | 'n' :: s => some ('\n', s)
  | 'f' :: s => some (Char.ofNat 0x0C, s)
  | 'r' :: s => some ('\r', s)
  | '"' :: s => some ('"', s)
  | '\\' :: s => some ('\\', s)
  | 'u' :: s => numberedChar 4 s
  | 'U' :: s => numberedChar 8 s
  | _ => none

/-- The rest of a basic text on one line, at most `fuel` characters. -/
def basicTail : (fuel : Nat) → Reader (List Char)
  | 0, _ => none
  | _ + 1, [] => none
  | _ + 1, '"' :: s => some ([], s)
  | fuel + 1, '\\' :: s => do
    let (c, s) ← escape s
    let (cs, s) ← basicTail fuel s
    return (c :: cs, s)
  | fuel + 1, c :: s =>
    if isPlain c then do
      let (cs, s) ← basicTail fuel s
      return (c :: cs, s)
    else none

/-- The rest of a literal text on one line. -/
def literalTail : Reader (List Char)
  | [] => none
  | c :: s =>
    if c = '\'' then some ([], s)
    else if isPlain c then do
      let (cs, s) ← literalTail s
      return (c :: cs, s)
    else none

/-- The text after the blanks and line breaks at its front. -/
def skipLines : List Char → List Char
  | '\n' :: s => skipLines s
  | '\r' :: '\n' :: s => skipLines s
  | c :: s => if isBlank c then skipLines s else c :: s
  | [] => []

/-- What follows a backslash that is the last word of its line, after all blanks and line breaks. -/
def continuation? (s : List Char) : Option (List Char) :=
  (lineBreak? (skipBlanks s)).map skipLines

/-- What closing quotes leave of the quotes before them: up to two more belong to the text. -/
def extraQuotes (quote : Char) : List Char → List Char × List Char
  | a :: b :: s =>
    if a = quote then (if b = quote then ([a, b], s) else ([a], b :: s)) else ([], a :: b :: s)
  | [a] => if a = quote then ([a], []) else ([], [a])
  | [] => ([], [])

/-- The rest of a basic text on several lines, at most `fuel` characters. A backslash at the end of
a line joins the next to it. -/
def multilineBasicTail : (fuel : Nat) → Reader (List Char)
  | 0, _ => none
  | _ + 1, [] => none
  | _ + 1, '"' :: '"' :: '"' :: s => some (extraQuotes '"' s)
  | fuel + 1, '\\' :: s =>
    match continuation? s with
    | some s => multilineBasicTail fuel s
    | none => do
      let (c, s) ← escape s
      let (cs, s) ← multilineBasicTail fuel s
      return (c :: cs, s)
  | fuel + 1, c :: s =>
    match lineBreak? (c :: s) with
    | some s => do
      let (cs, s) ← multilineBasicTail fuel s
      return ('\n' :: cs, s)
    | none =>
      if isPlain c then do
        let (cs, s) ← multilineBasicTail fuel s
        return (c :: cs, s)
      else none

/-- The rest of a literal text on several lines, at most `fuel` characters. -/
def multilineLiteralTail : (fuel : Nat) → Reader (List Char)
  | 0, _ => none
  | _ + 1, [] => none
  | _ + 1, '\'' :: '\'' :: '\'' :: s => some (extraQuotes '\'' s)
  | fuel + 1, c :: s =>
    match lineBreak? (c :: s) with
    | some s => do
      let (cs, s) ← multilineLiteralTail fuel s
      return ('\n' :: cs, s)
    | none =>
      if isPlain c then do
        let (cs, s) ← multilineLiteralTail fuel s
        return (c :: cs, s)
      else none

/-- The text after the line break at its front, if there is one. -/
def skipLineBreak (s : List Char) : List Char := (lineBreak? s).getD s

/-- A text on one line. -/
def lineText : Reader (List Char)
  | '"' :: s => basicTail (s.length + 1) s
  | '\'' :: s => literalTail s
  | _ => none

/-- A text of any style. -/
def anyText : Reader (List Char)
  | '"' :: '"' :: '"' :: s => multilineBasicTail (s.length + 1) (skipLineBreak s)
  | '\'' :: '\'' :: '\'' :: s => multilineLiteralTail (s.length + 1) (skipLineBreak s)
  | s => lineText s

/-! ### Writing -/

/-- A style of quoting. -/
inductive Style
  | basic
  | literal
  | multilineBasic
  | multilineLiteral
deriving DecidableEq

/-- The length of the longest run of a character, after `run` of them have just come. -/
def longestRun (q : Char) : (run : Nat) → List Char → Nat
  | run, [] => run
  | run, c :: cs => if c = q then longestRun q (run + 1) cs else max run (longestRun q 0 cs)

/-- Whether a character can only be written by an escape, wherever it stands. -/
def needsEscape (c : Char) : Bool := !isPlain c && c != '\n'

/-- The style in which a text is written: the first that takes all its characters as they are, tabs
apart. If there is none, it is a basic style, on one line if the text has no line breaks. -/
def styleOf (cs : List Char) : Style :=
  let escapes := cs.any needsEscape
  let backslash := cs.contains '\\'
  let broken := cs.contains '\n'
  let double := longestRun '"' 0 cs
  let single := longestRun '\'' 0 cs
  if !escapes && !backslash && !broken && double == 0 then .basic
  else if !escapes && !broken && single == 0 then .literal
  else if !escapes && !backslash && double ≤ 2 then .multilineBasic
  else if !escapes && single ≤ 2 then .multilineLiteral
  else if broken then .multilineBasic
  else .basic

/-- A character in a basic style, where a quote can stand as it is if `quotes` says so. -/
def escapeChar (quotes multiline : Bool) (c : Char) : List Char :=
  if c = '"' then (if quotes then ['"'] else ['\\', '"'])
  else if c = '\\' then ['\\', '\\']
  else if c = '\n' then (if multiline then ['\n'] else ['\\', 'n'])
  else if c = '\t' then ['\\', 't']
  else if c = '\r' then ['\\', 'r']
  else if c.toNat = 0x08 then ['\\', 'b']
  else if c.toNat = 0x0C then ['\\', 'f']
  else if isPlain c then [c]
  else ['\\', 'u', '0', '0', (Hex.digit (c.toNat / 16)).toUpper, (Hex.digit (c.toNat % 16)).toUpper]

/-- The characters of a text in a basic style. At most `limit` quotes in a row stand as they are,
and `run` of them have just come. -/
def escapeAll (limit : Nat) (multiline : Bool) : (run : Nat) → List Char → List Char
  | _, [] => []
  | run, c :: cs =>
    let quotes : Bool := run < limit
    escapeChar quotes multiline c ++
      escapeAll limit multiline (if c = '"' && quotes then run + 1 else 0) cs

/-- The line break after the opening quotes of a text that has line breaks. -/
def openingBreak (cs : List Char) : List Char := if cs.contains '\n' then ['\n'] else []

/-- A text in a style. -/
def quoteAs (style : Style) (cs : List Char) : List Char :=
  match style with
  | .basic => '"' :: (escapeAll 0 false 0 cs ++ ['"'])
  | .literal => '\'' :: (cs ++ ['\''])
  | .multilineBasic =>
    '"' :: '"' :: '"' :: (openingBreak cs ++ (escapeAll 2 true 0 cs ++ ['"', '"', '"']))
  | .multilineLiteral =>
    '\'' :: '\'' :: '\'' :: (openingBreak cs ++ (cs ++ ['\'', '\'', '\'']))

/-- A text as it is written. -/
def quote (s : String) : List Char := quoteAs (styleOf s.toList) s.toList

end Toml

end NextLedger
