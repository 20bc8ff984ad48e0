import NextLedger.Proofs.Json.Tokens
import NextLedger.Proofs.Toml.Quoted
import NextLedger.Toml.Reader

/-!
# Reading lines back

A value is written at the end of a line, and what is written for it **denotes** it if the reader
takes it off the front of every text that goes on with the end of that line (`Denotes`). Texts
denote themselves by their quoting. A number is not taken for a date or a time of the day, as the
marks that these need do not come between its digits or after them.

Lines **state** what the reader makes of them (`States`), wherever they stand in a document; lines
that follow each other state one thing after the other.
-/

namespace NextLedger

namespace Toml

/-- Whether a text denotes a value: at the end of a line, the value is read off it, and it does not
start with a blank. -/
structure Denotes (text : List Char) (v : Value) : Prop where
  value_append : ∀ rest, value (nestingLimit - 1) (text ++ '\n' :: rest) = some (v, '\n' :: rest)
  not_isBlank : ∀ c ∈ text.head?, isBlank c = false

theorem value_of_ne_bracket {c : Char} (h : c ≠ '[' ∧ c ≠ '{') (depth : Nat) (s : List Char) :
    value depth (c :: s) = simpleValue (c :: s) := by
  cases depth with
  | zero => rfl
  | succ depth =>
    rw [value]
    · rintro t ⟨⟩
      exact h.1 rfl
    · rintro t ⟨⟩
      exact h.2 rfl

/-! ### Texts -/

/-- A written text is read as a value, at any depth. -/
theorem value_quote (depth : Nat) (t : String) (rest : List Char)
    (hrest : ∀ c ∈ rest.head?, c ≠ '"' ∧ c ≠ '\'') :
    value depth (quote t ++ rest) = some (.text t, rest) := by
  obtain ⟨q, s, hquote, hq⟩ := exists_quote_eq_cons t
  have hany := anyText_quote t hrest
  rw [hquote, List.cons_append] at hany ⊢
  have hbracket : q ≠ '[' ∧ q ≠ '{' := by
    obtain rfl | rfl := hq <;> decide
  rw [value_of_ne_bracket hbracket, simpleValue, hany]
  simp only [String.ofList_toList]

theorem denotes_quote (t : String) : Denotes (quote t) (.text t) where
  value_append rest := value_quote _ t _ fun c hc => by
    obtain rfl : '\n' = c := by simpa using hc
    decide
  not_isBlank c hc := by
    obtain ⟨q, s, hquote, hq⟩ := exists_quote_eq_cons t
    obtain rfl : q = c := by simpa [hquote] using hc
    obtain rfl | rfl := hq <;> decide

/-! ### Numbers -/

section Numbers

variable {ds : List Char} (hds : ∀ d ∈ ds, d.isDigit = true) (rest : List Char)

theorem digit?_of_isDigit {c : Char} (h : c.isDigit = true) :
    digit? 10 c = some (c.toNat - 0x30) := by
  have hrange : 48 ≤ c.toNat ∧ c.toNat ≤ 57 := by
    simpa [Char.isDigit, UInt32.le_iff_toNat_le] using h
  rw [digit?, if_pos h, Option.filter_some, if_pos]
  exact decide_eq_true (by omega)

include hds

theorem fixedNumber_digits (n high : Nat) :
    fixedNumber n high (ds ++ '\n' :: rest) = none ∨
      ∃ k ds', (∀ d ∈ ds', d.isDigit = true) ∧
        fixedNumber n high (ds ++ '\n' :: rest) = some (k, ds' ++ '\n' :: rest) := by
  induction n generalizing high ds with
  | zero => exact .inr ⟨high, ds, hds, rfl⟩
  | succ n ih =>
    cases ds with
    | nil => exact .inl rfl
    | cons d ds =>
      obtain ⟨hd, hds⟩ := List.forall_mem_cons.1 hds
      rw [List.cons_append, fixedNumber, digit?_of_isDigit hd]
      exact ih hds _

theorem mark_digits {c : Char} (hdigit : c.isDigit = false) (hline : c ≠ '\n') :
    mark c (ds ++ '\n' :: rest) = none := by
  cases ds with
  | nil => exact if_neg hline
  | cons d ds =>
    have hd := hds d List.mem_cons_self
    refine if_neg ?_
    rintro rfl
    exact Bool.false_ne_true (hdigit.symm.trans hd)

/-- Digits are no date and no time of the day. -/
theorem time_digits : time (ds ++ '\n' :: rest) = none := by
  have hdate : date (ds ++ '\n' :: rest) = none := by
    obtain h | ⟨k, ds', hds', h⟩ := fixedNumber_digits hds rest 4 0
    · simp [date, h]
    · simp [date, h, mark_digits hds' rest (c := '-') rfl (by decide)]
  have hday : timeOfDay (ds ++ '\n' :: rest) = none := by
    obtain h | ⟨k, ds', hds', h⟩ := fixedNumber_digits hds rest 2 0
    · simp [timeOfDay, twoDigits, h]
    · simp [timeOfDay, twoDigits, h, mark_digits hds' rest (c := ':') rfl (by decide)]
  rw [time, hdate, hday]
  rfl

theorem moreDigits_digits :
    moreDigits 10 (ds ++ '\n' :: rest) = (ds.map fun d => d.toNat - 0x30, '\n' :: rest) := by
  induction ds with
  | nil => rfl
  | cons d ds ih =>
    obtain ⟨hd, hds⟩ := List.forall_mem_cons.1 hds
    rw [List.cons_append, moreDigits, digit?_of_isDigit hd, ih hds]
    · rfl
    · rintro c s rfl
      exact absurd hd (by decide)

end Numbers

theorem ofDigits_toDigits (n : Nat) :
    ofDigits 10 ((Nat.toDigits 10 n).map fun d => d.toNat - 0x30) = n := by
  have hvalue : Nat.ofDigitChars 10 (Nat.toDigits 10 n) 0 = n :=
    Nat.ofDigitChars_toDigits (by decide) le_rfl
  rw [Nat.ofDigitChars_eq_foldl] at hvalue
  rw [ofDigits, List.foldl_map]
  simp only [Nat.mul_comm 10] at hvalue
  exact hvalue

theorem wholePart_toDigits (n : Nat) (rest : List Char) :
    wholePart (Nat.toDigits 10 n ++ '\n' :: rest) =
      some ((Nat.toDigits 10 n).map fun d => d.toNat - 0x30, '\n' :: rest) := by
  have hds : ∀ d ∈ Nat.toDigits 10 n, d.isDigit = true := fun _ => Json.isDigit_of_mem_toDigits
  obtain ⟨c, cs, hdigits, hzero⟩ := Json.exists_toDigits_eq_cons n
  rw [hdigits] at hds ⊢
  obtain ⟨hc, hcs⟩ := List.forall_mem_cons.1 hds
  by_cases h : c = '0'
  · rw [h, hzero h]
    rfl
  · rw [List.cons_append, wholePart, digits, digit?_of_isDigit hc]
    · simp only [Option.bind_eq_bind, Option.bind_some, moreDigits_digits hcs]
      rfl
    · rintro s ⟨⟩
      exact h rfl

theorem anyText_eq_none {c : Char} (h : c ≠ '"' ∧ c ≠ '\'') (s : List Char) :
    anyText (c :: s) = none := by
  rw [anyText, lineText]
  · rintro t ⟨⟩
    exact h.1 rfl
  · rintro t ⟨⟩
    exact h.2 rfl
  · rintro t ⟨⟩
    exact h.1 rfl
  · rintro t ⟨⟩
    exact h.2 rfl

section

variable {n : Nat}

/-- The first digit of a number is none of the marks, and nothing comes after a zero. -/
theorem exists_first_digit (n : Nat) :
    ∃ c cs, Nat.toDigits 10 n = c :: cs ∧ (∀ d : Char, d.isDigit = false → c ≠ d) ∧
      (c = '0' → cs = []) := by
  obtain ⟨c, cs, hdigits, hzero⟩ := Json.exists_toDigits_eq_cons n
  have hc : c.isDigit = true := Json.isDigit_of_mem_toDigits (hdigits ▸ List.mem_cons_self)
  refine ⟨c, cs, hdigits, ?_, hzero⟩
  rintro d hd rfl
  exact Bool.false_ne_true (hd.symm.trans hc)

theorem unsigned_toDigits (h : n < 2 ^ 63) (rest : List Char) :
    unsigned false (Nat.toDigits 10 n ++ '\n' :: rest) = some (.integer n, '\n' :: rest) := by
  have hint : integer n = some (.integer n) := if_pos (by omega)
  obtain ⟨c, cs, hdigits, hne, -⟩ := exists_first_digit n
  rw [unsigned, wholePart_toDigits]
  · simp only [Option.bind_eq_bind, Option.bind_some, Bool.false_eq_true, if_false,
      ofDigits_toDigits, hint]
    rfl
  · intro s heq
    rw [hdigits] at heq
    exact hne 'i' rfl (List.cons.inj heq).1
  · intro s heq
    rw [hdigits] at heq
    exact hne 'n' rfl (List.cons.inj heq).1

theorem number_toDigits (h : n < 2 ^ 63) (rest : List Char) :
    number (Nat.toDigits 10 n ++ '\n' :: rest) = some (.integer n, '\n' :: rest) := by
  have hunsigned := unsigned_toDigits h rest
  obtain ⟨c, cs, hdigits, hne, hzero⟩ := exists_first_digit n
  rw [hdigits, List.cons_append] at hunsigned ⊢
  -- A zero is the only digit, so it does not start the mark of another base.
  have hbase : ∀ d s, d ≠ '\n' → c :: (cs ++ '\n' :: rest) ≠ '0' :: d :: s := by
    intro d s hd heq
    obtain ⟨hc, htail⟩ := List.cons.inj heq
    rw [hzero hc] at htail
    exact hd (List.cons.inj htail).1.symm
  rw [number, hunsigned]
  · exact fun s => hbase 'x' s (by decide)
  · exact fun s => hbase 'o' s (by decide)
  · exact fun s => hbase 'b' s (by decide)
  · exact fun s heq => hne '-' rfl (List.cons.inj heq).1
  · exact fun s heq => hne '+' rfl (List.cons.inj heq).1

/-- **Numbers.** The digits of a number of 63 bits denote it. -/
theorem denotes_toDigits (h : n < 2 ^ 63) : Denotes (Nat.toDigits 10 n) (.integer n) := by
  have hds : ∀ d ∈ Nat.toDigits 10 n, d.isDigit = true := fun _ => Json.isDigit_of_mem_toDigits
  obtain ⟨c, cs, hdigits, hne, -⟩ := exists_first_digit n
  refine ⟨fun rest => ?_, fun d hd => ?_⟩
  · have htime := time_digits hds rest
    have hnumber := number_toDigits h rest
    rw [hdigits, List.cons_append] at htime hnumber ⊢
    rw [value_of_ne_bracket ⟨hne '[' rfl, hne '{' rfl⟩, simpleValue,
      anyText_eq_none ⟨hne '"' rfl, hne '\'' rfl⟩, scalar, htime, hnumber]
    · rfl
    · exact fun s heq => hne 't' rfl (List.cons.inj heq).1
    · exact fun s heq => hne 'f' rfl (List.cons.inj heq).1
  · obtain rfl : c = d := by simpa [hdigits] using hd
    simp [isBlank, hne ' ' rfl, hne '\t' rfl]

end

/-! ### Arrays -/

section Arrays

variable {r : Reader Value} {s t rest : List Char} {c : Char} {v : Value}

/-- An item before a comma. -/
theorem arrayItems_of_comma (hskip : skipSpace false s = c :: t) (hc : c ≠ ']')
    (hitem : r (c :: t) = some (v, ',' :: rest)) (fuel : Nat) :
    arrayItems r (fuel + 1) s = (arrayItems r fuel rest).map fun p => (v :: p.1, p.2) := by
  have hcomma : skipSpace false (',' :: rest) = ',' :: rest := rfl
  rw [arrayItems, hskip]
  split
  · rename_i heq
    exact absurd (List.cons.inj heq).1 hc
  · simp only [Option.bind_eq_bind, hitem, Option.bind_some, hcomma]
    cases arrayItems r fuel rest <;> rfl

/-- The last item, without a comma after it. -/
theorem arrayItems_of_bracket (hskip : skipSpace false s = c :: t) (hc : c ≠ ']')
    (hitem : r (c :: t) = some (v, ']' :: rest)) (fuel : Nat) :
    arrayItems r (fuel + 1) s = some ([v], rest) := by
  have hbracket : skipSpace false (']' :: rest) = ']' :: rest := rfl
  rw [arrayItems, hskip]
  split
  · rename_i heq
    exact absurd (List.cons.inj heq).1 hc
  · simp only [Option.bind_eq_bind, hitem, Option.bind_some, hbracket]
    rfl

end Arrays

/-! ### Keys -/

/-- Whether a name may stand without quotes. -/
def IsBareName (name : String) : Prop :=
  name.toList ≠ [] ∧ ∀ c ∈ name.toList, isBare c = true

theorem skipBlanks_append {text : List Char} (h : ∀ c ∈ text.head?, isBlank c = false)
    (rest : List Char) : skipBlanks (text ++ '\n' :: rest) = text ++ '\n' :: rest := by
  cases text with
  | nil => rfl
  | cons c cs => simp [skipBlanks, h c rfl]

section Keys

variable {name : String} (hname : IsBareName name)

include hname

/-- The first character of a bare name is none of the marks. -/
theorem IsBareName.exists_eq_cons :
    ∃ c cs, name.toList = c :: cs ∧ ∀ d : Char, isBare d = false → c ≠ d := by
  obtain ⟨c, cs, hcons⟩ := List.exists_cons_of_ne_nil hname.1
  have hc : isBare c = true := hname.2 c (hcons ▸ List.mem_cons_self)
  refine ⟨c, cs, hcons, ?_⟩
  rintro d hd rfl
  exact Bool.false_ne_true (hd.symm.trans hc)

theorem keyName_append {s : List Char} (hs : ∀ c ∈ s.head?, isBare c = false) :
    keyName (name.toList ++ s) = some (name, s) := by
  obtain ⟨c, cs, hcons, hne⟩ := hname.exists_eq_cons
  have hline : lineText (name.toList ++ s) = none := by
    rw [hcons, List.cons_append, lineText]
    · exact fun t heq => hne '"' rfl (List.cons.inj heq).1
    · exact fun t heq => hne '\'' rfl (List.cons.inj heq).1
  have htake : s.takeWhile isBare = [] := by
    cases s with
    | nil => rfl
    | cons d s => simp [hs d rfl]
  have hdrop : s.dropWhile isBare = s := by
    cases s with
    | nil => rfl
    | cons d s => simp [hs d rfl]
  rw [keyName, hline, List.takeWhile_append_of_pos hname.2, List.dropWhile_append_of_pos hname.2,
    htake, hdrop, List.append_nil]
  simp [hname.1]

/-- A bare name is read as a key, up to the mark after it. -/
theorem key_append {s t : List Char} {d : Char} (hs : ∀ c ∈ s.head?, isBare c = false)
    (hskip : skipBlanks s = d :: t) (hd : d ≠ '.') :
    key (name.toList ++ s) = some (⟨[], name⟩, d :: t) := by
  obtain ⟨c, cs, hcons, hne⟩ := hname.exists_eq_cons
  have hnone : skipBlanks (name.toList ++ s) = name.toList ++ s := by
    simp [skipBlanks, hcons, isBlank, hne ' ' rfl, hne '\t' rfl]
  rw [key, show nestingLimit - 1 = 78 + 1 from rfl, keyNames, hnone, keyName_append hname hs]
  simp only [Option.bind_eq_bind, Option.bind_some, hskip]
  split
  · rename_i heq
    exact absurd (List.cons.inj heq).1 hd
  · rfl

theorem assignment_append {text : List Char} {v : Value} (hvalue : Denotes text v)
    (rest : List Char) :
    assignment (value (nestingLimit - 1)) (name.toList ++ ' ' :: '=' :: ' ' ::
      (text ++ '\n' :: rest)) = some ((⟨[], name⟩, v), '\n' :: rest) := by
  have hkey : key (name.toList ++ ' ' :: '=' :: ' ' :: (text ++ '\n' :: rest)) =
      some (⟨[], name⟩, '=' :: ' ' :: (text ++ '\n' :: rest)) :=
    key_append hname (by simp [isBare]) rfl (by decide)
  have hskip : skipBlanks (' ' :: (text ++ '\n' :: rest)) = text ++ '\n' :: rest :=
    skipBlanks_append hvalue.not_isBlank rest
  rw [assignment, hkey]
  simp only [Option.bind_eq_bind, Option.bind_some, mark, if_true, hskip, hvalue.value_append rest]
  rfl

end Keys

/-! ### Lines -/

/-- Whether lines state something: the reader takes as many lines off the front of every document
that goes on from them as they have, and finds these statements. -/
def States (text : List Char) (statements : List Statement) : Prop :=
  ∃ n ≤ text.length, ∀ fuel rest,
    lines (fuel + n) (text ++ rest) = (lines fuel rest).map (statements ++ ·)

theorem States.append {a b : List Char} {xs ys : List Statement} (ha : States a xs)
    (hb : States b ys) : States (a ++ b) (xs ++ ys) := by
  obtain ⟨n, hn, hx⟩ := ha
  obtain ⟨m, hm, hy⟩ := hb
  refine ⟨m + n, by rw [List.length_append]; omega, fun fuel rest => ?_⟩
  rw [← Nat.add_assoc, List.append_assoc, hx, hy, Option.map_map]
  congr 1
  funext zs
  exact (List.append_assoc xs ys zs).symm

/-- A whole document of lines. -/
theorem States.lines_eq {text : List Char} {statements : List Statement}
    (h : States text statements) : lines text.length text = some statements := by
  obtain ⟨n, hn, hlines⟩ := h
  have hall := hlines (text.length - n) []
  rw [Nat.sub_add_cancel hn, List.append_nil] at hall
  rw [hall, lines, Option.map_some, List.append_nil]

/-- One line, by its statement. -/
theorem states_of_statement (text : List Char) (first : Option Statement)
    (hblank : ∀ c ∈ text.head?, isBlank c = false)
    (h : ∀ rest, statement (text ++ '\n' :: rest) = some (first, '\n' :: rest)) :
    States (text ++ ['\n']) first.toList := by
  refine ⟨1, by simp, fun fuel rest => ?_⟩
  have hskip := skipBlanks_append hblank rest
  have hend : lineEnd ('\n' :: rest) = some rest := rfl
  obtain ⟨c, s, hcons⟩ : ∃ c s, text ++ '\n' :: rest = c :: s :=
    List.exists_cons_of_ne_nil (by simp)
  have hstatement := h rest
  rw [List.append_assoc, List.singleton_append]
  rw [hcons] at hskip hstatement ⊢
  rw [lines, hskip, hstatement]
  simp only [Option.bind_eq_bind, Option.bind_some, hend]
  cases lines fuel rest <;> rfl

theorem states_blank : States ['\n'] [] :=
  states_of_statement [] none nofun fun _ => rfl

/-- A line with a header. -/
theorem states_header {name : String} (h : IsBareName name) :
    States ('[' :: (name.toList ++ [']', '\n'])) [.header ⟨[], name⟩] := by
  obtain ⟨c, cs, hcons, hne⟩ := h.exists_eq_cons
  have hline := states_of_statement ('[' :: (name.toList ++ [']']))
    (some (.header ⟨[], name⟩)) (by simp [isBlank]) fun rest => by
      have hkey : key (name.toList ++ ']' :: '\n' :: rest) =
          some (⟨[], name⟩, ']' :: '\n' :: rest) :=
        key_append h (by simp [isBare]) rfl (by decide)
      rw [List.cons_append, List.append_assoc, List.singleton_append, statement, hkey]
      · rfl
      · intro s heq
        rw [hcons] at heq
        exact hne '[' rfl (List.cons.inj heq).1
  simpa using hline

/-- A line that assigns a value. -/
theorem states_assign {name : String} {text : List Char} {v : Value} (h : IsBareName name)
    (hvalue : Denotes text v) :
    States (name.toList ++ ' ' :: '=' :: ' ' :: (text ++ ['\n'])) [.assign ⟨[], name⟩ v] := by
  obtain ⟨c, cs, hcons, hne⟩ := h.exists_eq_cons
  have hother : ¬ (c = '#' ∨ c = '\n' ∨ c = '\r') :=
    not_or.2 ⟨hne '#' rfl, not_or.2 ⟨hne '\n' rfl, hne '\r' rfl⟩⟩
  have hline := states_of_statement (name.toList ++ ' ' :: '=' :: ' ' :: text)
    (some (.assign ⟨[], name⟩ v)) (by simp [hcons, isBlank, hne ' ' rfl, hne '\t' rfl])
    fun rest => by
      have hassignment := assignment_append h hvalue rest
      simp only [List.append_assoc, List.cons_append]
      rw [hcons, List.cons_append] at hassignment ⊢
      rw [statement, if_neg hother, hassignment]
      · rfl
      · exact fun s heq _ => hne '[' rfl heq
      · exact hne '[' rfl
  simpa using hline

end Toml

end NextLedger
