import NextLedger.Bytes.Hex
import NextLedger.Json

/-!
# Writing JSON

A value is written either **compact**, without blanks, or **indented**: each item and member on a
line of its own, two blanks further in than what holds it. Texts escape the quote, the backslash and
control characters below U+0020, the last by a letter where there is one.
-/

namespace NextLedger

namespace Json

/-- How lines are broken. -/
inductive Layout
  | compact
  | indented
deriving DecidableEq

namespace Layout

/-- What stands before an item `depth` levels in. -/
def lineBreak : Layout → (depth : Nat) → List Char
  | .compact, _ => []
  | .indented, depth => '\n' :: List.replicate (2 * depth) ' '

/-- What stands between the name and the value of a member. -/
def colon : Layout → List Char
  | .compact => [':']
  | .indented => [':', ' ']

end Layout

/-- The decimal digits of an integer, after a minus sign if it is negative. -/
def decimal (n : Int) : List Char :=
  if n < 0 then '-' :: Nat.toDigits 10 n.natAbs else Nat.toDigits 10 n.natAbs

/-- One character inside a text. -/
def escapeChar (c : Char) : List Char :=
  if c = '"' then ['\\', '"']
  else if c = '\\' then ['\\', '\\']
  else if c.toNat = 0x08 then ['\\', 'b']
  else if c.toNat = 0x09 then ['\\', 't']
  else if c.toNat = 0x0A then ['\\', 'n']
  else if c.toNat = 0x0C then ['\\', 'f']
  else if c.toNat = 0x0D then ['\\', 'r']
  else if c.toNat < 0x20 then
    ['\\', 'u', '0', '0', Hex.digit (c.toNat / 16), Hex.digit (c.toNat % 16)]
  else [c]

/-- A text in quotes. -/
def quoted (s : String) : List Char := '"' :: (s.toList.flatMap escapeChar ++ ['"'])

mutual

/-- The text of a value that stands `depth` levels in. -/
def render (layout : Layout) (depth : Nat) : Json → List Char
  | .null => ['n', 'u', 'l', 'l']
  | .int n => decimal n
  | .text s => quoted s
  | .list [] => ['[', ']']
  | .list (item :: items) =>
    '[' :: (layout.lineBreak (depth + 1) ++ (render layout (depth + 1) item ++
      (renderItems layout (depth + 1) items ++ (layout.lineBreak depth ++ [']']))))
  | .record [] => ['{', '}']
  | .record ((name, value) :: members) =>
    '{' :: (layout.lineBreak (depth + 1) ++ (quoted name ++ (layout.colon ++
      (render layout (depth + 1) value ++
        (renderMembers layout (depth + 1) members ++ (layout.lineBreak depth ++ ['}']))))))

/-- The items after the first, each after a comma. -/
def renderItems (layout : Layout) (depth : Nat) : List Json → List Char
  | [] => []
  | item :: items =>
    ',' :: (layout.lineBreak depth ++ (render layout depth item ++
      renderItems layout depth items))

/-- The members after the first, each after a comma. -/
def renderMembers (layout : Layout) (depth : Nat) : List (String × Json) → List Char
  | [] => []
  | (name, value) :: members =>
    ',' :: (layout.lineBreak depth ++ (quoted name ++ (layout.colon ++
      (render layout depth value ++ renderMembers layout depth members))))

end

/-- A value without blanks. -/
def compact (j : Json) : String := String.ofList (render .compact 0 j)

/-- A value on indented lines. -/
def pretty (j : Json) : String := String.ofList (render .indented 0 j)

end Json

end NextLedger
