/-!
# JSON values

The values that this library writes: no fractions and no booleans, and the members of a record in
the order in which they are written.
-/

namespace NextLedger

/-- A JSON value. -/
inductive Json
  | null
  | int (n : Int)
  | text (s : String)
  | list (items : List Json)
  | record (members : List (String × Json))

end NextLedger
