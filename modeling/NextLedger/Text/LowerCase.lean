import NextLedger.Text.CaseTable

/-!
# Lower case

The lower-case form of a text by the full Unicode rules. Two characters are special: `İ` becomes two
characters, and a capital sigma at the end of a word becomes `ς`.
-/

namespace NextLedger

namespace LowerCase

/-- Whether the first character that is not case-ignorable is cased. -/
def startsCased : List Char → Bool
  | [] => false
  | c :: cs =>
    if CaseTable.inSome CaseTable.ignorable c.toNat then startsCased cs
    else CaseTable.inSome CaseTable.cased c.toNat

/-- The lower-case form of a character wherever it stands. -/
def lowerChar (c : Char) : List Char :=
  let n := c.toNat
  if n < 0x80 then
    [if 0x41 ≤ n && n ≤ 0x5A then Char.ofNat (n + 0x20) else c]
  else if n = 0x130 then
    ['i', Char.ofNat 0x307]
  else
    match CaseTable.lowerRuns.find? (·.holds n) with
    | some r => [Char.ofNat (n + r.offset).toNat]
    | none => [c]

/-- The lower-case form of the text `cs`, which follows the characters `before`, the nearest
first. A sigma is final if a cased letter comes before it and none comes after it. -/
def lowerAfter (before : List Char) : List Char → List Char
  | [] => []
  | c :: cs =>
    let lowered :=
      if c = 'Σ' then
        if startsCased before && !startsCased cs then ['ς'] else ['σ']
      else lowerChar c
    lowered ++ lowerAfter (c :: before) cs

end LowerCase

/-- The lower-case form of a text. -/
def lowerCase (s : String) : String := String.ofList (LowerCase.lowerAfter [] s.toList)

end NextLedger
