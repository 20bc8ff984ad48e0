import NextLedger.Json.Reader

/-!
# Skipping JSON

The values of members that nobody asked for are checked to be JSON and passed over. The check is
laxer than reading: numbers may be of any size, and the halves of characters need not be paired.
-/

namespace NextLedger

namespace Json

/-- What follows the letter of a skipped exponent. -/
def skipExponent (s : List Char) : Except Problem (List Char) :=
  let s :=
    match s with
    | '+' :: s => s
    | '-' :: s => s
    | s => s
  match s with
  | [] => .error .malformed
  | c :: s => if c.isDigit then .ok (s.dropWhile Char.isDigit) else .error .malformed

/-- What follows the digits of a skipped number. -/
def skipAfterDigits : List Char → Except Problem (List Char)
  | 'e' :: s => skipExponent s
  | 'E' :: s => skipExponent s
  | s => .ok s

/-- A number without its sign. -/
def skipUnsigned (s : List Char) : Except Problem (List Char) :=
  let rest := s.dropWhile Char.isDigit
  match s.takeWhile Char.isDigit with
  | [] => .error .malformed
  | '0' :: _ :: _ => .error .malformed
  | _ =>
    match rest with
    | '.' :: rest =>
      if (rest.takeWhile Char.isDigit).isEmpty then .error .malformed
      else skipAfterDigits (rest.dropWhile Char.isDigit)
    | rest => skipAfterDigits rest

/-- The characters of a text and its closing quote, at most `fuel` characters. -/
def skipText : (fuel : Nat) → List Char → Except Problem (List Char)
  | 0, _ => .error .truncated
  | _ + 1, [] => .error .truncated
  | _ + 1, '"' :: s => .ok s
  | _ + 1, ['\\'] => .error .truncated
  | fuel + 1, '\\' :: 'u' :: s => do
    let (_, s) ← hex4 s
    skipText fuel s
  | fuel + 1, '\\' :: c :: s =>
    if ['"', '\\', '/', 'b', 'f', 'n', 'r', 't'].contains c then skipText fuel s
    else .error .malformed
  | fuel + 1, c :: s => if c.toNat < 0x20 then .error .malformed else skipText fuel s

/-- Whether the innermost open value is a list or a record. -/
inductive Bracket
  | list
  | record
deriving DecidableEq

/-- The character that closes an open value. -/
def Bracket.closing : Bracket → Char
  | .list => ']'
  | .record => '}'

/-- What is due next. -/
inductive Due
  /-- A value. -/
  | value
  /-- An item or member of the innermost open value, or its end. -/
  | firstOrEnd
  /-- A comma, or the end of the innermost open value. -/
  | commaOrEnd
  /-- A name and a colon. -/
  | name
deriving DecidableEq

/-- Skips until every open value is closed, in at most `fuel` steps. -/
def skipOpen : (fuel : Nat) → Due → List Bracket → List Char → Except Problem (List Char)
  | 0, _, _, _ => .error .truncated
  | fuel + 1, due, stack, s =>
    match due, stack, skipBlanks s with
    | .commaOrEnd, [], _ => .ok s
    | _, _, [] => .error .truncated
    | .value, stack, 'n' :: s => do
      let (_, s) ← word ['u', 'l', 'l'] s
      skipOpen fuel .commaOrEnd stack s
    | .value, stack, 't' :: s => do
      let (_, s) ← word ['r', 'u', 'e'] s
      skipOpen fuel .commaOrEnd stack s
    | .value, stack, 'f' :: s => do
      let (_, s) ← word ['a', 'l', 's', 'e'] s
      skipOpen fuel .commaOrEnd stack s
    | .value, stack, '"' :: s => do
      let s ← skipText (s.length + 1) s
      skipOpen fuel .commaOrEnd stack s
    | .value, stack, '-' :: s => do
      let s ← skipUnsigned s
      skipOpen fuel .commaOrEnd stack s
    | .value, stack, '[' :: s => skipOpen fuel .firstOrEnd (.list :: stack) s
    | .value, stack, '{' :: s => skipOpen fuel .firstOrEnd (.record :: stack) s
    | .value, stack, c :: s =>
      if c.isDigit then do
        let s ← skipUnsigned (c :: s)
        skipOpen fuel .commaOrEnd stack s
      else .error .malformed
    | .firstOrEnd, [], s => skipOpen fuel .value [] s
    | .firstOrEnd, b :: stack, c :: s =>
      if c = b.closing then skipOpen fuel .commaOrEnd stack s
      else skipOpen fuel (if b = .list then .value else .name) (b :: stack) (c :: s)
    | .commaOrEnd, b :: stack, c :: s =>
      if c = b.closing then skipOpen fuel .commaOrEnd stack s
      else if c = ',' then skipOpen fuel (if b = .list then .value else .name) (b :: stack) s
      else .error .malformed
    | .name, stack, '"' :: s => do
      let s ← skipText (s.length + 1) s
      match skipBlanks s with
      | [] => .error .truncated
      | ':' :: s => skipOpen fuel .value stack s
      | _ => .error .malformed
    | .name, _, _ => .error .malformed

/-- Skips one value. -/
def skipValue (s : List Char) : Except Problem (List Char) :=
  skipOpen (3 * s.length + 3) .value [] s

end Json

end NextLedger
