import NextLedger.Account.Id

/-!
# Maps keyed by account

A finite map whose keys are accounts is the list of its entries in ascending order of keys. Maps
with the same entries are therefore equal, and walking one always visits accounts in the order that
every node agrees on.
-/

namespace NextLedger

namespace AccountId

theorem lt_irrefl (a : AccountId) : ¬ a < a := List.lt_irrefl a.toBytes

theorem lt_trans {a b c : AccountId} (h : a < b) (h' : b < c) : a < c :=
  List.lt_trans (lt_iff.1 h) (lt_iff.1 h')

theorem eq_of_not_lt {a b : AccountId} (h : ¬ a < b) (h' : ¬ b < a) : a = b :=
  ext (List.le_antisymm h' h)

end AccountId

/-- A finite map from accounts to values. -/
structure AccountMap (ν : Type) where
  entries : List (AccountId × ν)
  ascending : entries.Pairwise fun p q => p.1 < q.1

namespace AccountMap

variable {ν : Type}

@[ext] theorem ext {m n : AccountMap ν} (h : m.entries = n.entries) : m = n := by
  cases m; cases n; cases h; rfl

instance [DecidableEq ν] : DecidableEq (AccountMap ν) := fun m n =>
  if h : m.entries = n.entries then isTrue (ext h) else isFalse fun e => h (e ▸ rfl)

/-- The map without entries. -/
def empty : AccountMap ν := ⟨[], .nil⟩

/-- The entries after `v` is put under `a`. -/
def insertEntry (a : AccountId) (v : ν) : List (AccountId × ν) → List (AccountId × ν)
  | [] => [(a, v)]
  | (b, w) :: rest =>
    if a < b then (a, v) :: (b, w) :: rest
    else if b < a then (b, w) :: insertEntry a v rest
    else (a, v) :: rest

theorem fst_mem_insertEntry {a : AccountId} {v : ν} {es : List (AccountId × ν)}
    {p : AccountId × ν} (h : p ∈ insertEntry a v es) : p = (a, v) ∨ p ∈ es := by
  induction es with
  | nil => exact Or.inl (by simpa [insertEntry] using h)
  | cons e es ih =>
    simp only [insertEntry] at h
    split at h
    · simpa using h
    · split at h
      · rcases List.mem_cons.1 h with rfl | h
        · simp
        · rcases ih h with h | h <;> simp [h]
      · rcases List.mem_cons.1 h with h | h <;> simp [h]

theorem ascending_insertEntry {a : AccountId} {v : ν} {es : List (AccountId × ν)}
    (h : es.Pairwise fun p q => p.1 < q.1) :
    (insertEntry a v es).Pairwise fun p q => p.1 < q.1 := by
  induction es with
  | nil => simp [insertEntry]
  | cons e es ih =>
    obtain ⟨hhead, htail⟩ := List.pairwise_cons.1 h
    simp only [insertEntry]
    split
    · rename_i hlt
      refine List.pairwise_cons.2 ⟨fun p hp => ?_, h⟩
      rcases List.mem_cons.1 hp with rfl | hp
      · exact hlt
      · exact AccountId.lt_trans hlt (hhead p hp)
    · rename_i hnlt
      split
      · rename_i hlt
        refine List.pairwise_cons.2 ⟨fun p hp => ?_, ih htail⟩
        rcases fst_mem_insertEntry hp with rfl | hp
        · exact hlt
        · exact hhead p hp
      · rename_i hngt
        have heq : a = e.1 := AccountId.eq_of_not_lt hnlt hngt
        exact List.pairwise_cons.2 ⟨fun p hp => heq ▸ hhead p hp, htail⟩

/-- Puts a value under an account, in place of what was there. -/
def insert (m : AccountMap ν) (a : AccountId) (v : ν) : AccountMap ν :=
  ⟨insertEntry a v m.entries, ascending_insertEntry m.ascending⟩

/-- The value under an account. -/
def get? (m : AccountMap ν) (a : AccountId) : Option ν :=
  (m.entries.find? fun p => decide (p.1 = a)).map (·.2)

/-- Whether an account has a value. -/
def contains (m : AccountMap ν) (a : AccountId) : Bool := (m.get? a).isSome

/-- The number of entries. -/
def size (m : AccountMap ν) : Nat := m.entries.length

/-- The values, in ascending order of their accounts. -/
def values (m : AccountMap ν) : List ν := m.entries.map (·.2)

theorem find?_insertEntry {a b : AccountId} {v : ν} {es : List (AccountId × ν)} :
    (insertEntry a v es).find? (fun p => decide (p.1 = b)) =
      if a = b then some (a, v) else es.find? fun p => decide (p.1 = b) := by
  induction es with
  | nil => by_cases hab : a = b <;> simp [insertEntry, hab]
  | cons e es ih =>
    simp only [insertEntry]
    split
    · by_cases hab : a = b <;> simp [hab]
    · rename_i hnlt
      split
      · rename_i hlt
        rw [List.find?_cons, ih, List.find?_cons]
        by_cases hab : a = b
        · have hne : e.1 ≠ b := fun h => by
            rw [h, hab] at hlt
            exact AccountId.lt_irrefl b hlt
          simp [hab, hne]
        · simp [hab]
      · rename_i hngt
        have heq : a = e.1 := AccountId.eq_of_not_lt hnlt hngt
        by_cases hab : a = b
        · simp [hab]
        · simp [hab, ← heq]

/-- What is put under an account is found there, and nothing else changes. -/
theorem get?_insert (m : AccountMap ν) (a b : AccountId) (v : ν) :
    (m.insert a v).get? b = if a = b then some v else m.get? b := by
  simp only [get?, insert, find?_insertEntry]
  split <;> rfl

/-- The map that holds each of some entries, the last of those under one account. -/
def ofList (es : List (AccountId × ν)) : AccountMap ν :=
  es.foldl (fun m e => m.insert e.1 e.2) empty

end AccountMap

end NextLedger
