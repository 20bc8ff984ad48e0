import Mathlib
import NextLedger.Toml.Quoted

/-!
# Reading quoted texts back

Every style undoes what it does, as long as the text may be written in it at all (`Style.Takes`),
and the style that is chosen for a text takes it. What follows a written text matters only if it is
another quote, since up to two quotes before the closing ones belong to the text.

In a basic style a character is either **verbatim**, and stands for itself, or written by an escape;
the reader undoes the escape at once. So the induction over the characters has three cases, and the
third is the one with an argument in it: a verbatim quote. It is taken for a part of the text unless
two more quotes come after it, and as no three verbatim quotes follow each other, those that come
belong to the closing ones.
-/

namespace NextLedger

namespace Toml

/-! ### Escapes -/

theorem lt_of_isPlain_eq_false {c : Char} (h : isPlain c = false) : c.toNat < 0x80 := by
  simp only [isPlain, Bool.or_eq_false_iff, Bool.and_eq_false_iff, decide_eq_false_iff_not,
    bne_eq_false_iff_eq] at h
  omega

theorem digit?_toUpper_digit {n : Nat} (h : n < 16) :
    digit? 16 (Hex.digit n).toUpper = some n := by
  have hall : ∀ n < 16, digit? 16 (Hex.digit n).toUpper = some n := by decide
  exact hall n h

/-- The reader undoes the escape of a character by its number. -/
theorem escape_number {n : Nat} (h : n < 0x80) (s : List Char) :
    escape ('u' :: '0' :: '0' :: (Hex.digit (n / 16)).toUpper :: (Hex.digit (n % 16)).toUpper ::
      s) = some (Char.ofNat n, s) := by
  have hzero : digit? 16 '0' = some 0 := by decide
  have hhigh := digit?_toUpper_digit (n := n / 16) (by omega)
  have hlow := digit?_toUpper_digit (n := n % 16) (by omega)
  have hvalue : ((0 * 16 + 0) * 16 + n / 16) * 16 + n % 16 = n := by omega
  have hvalid : n.isValidChar := .inl (by omega)
  simp only [escape, numberedChar, hexNumber, hzero, hhigh, hlow, Option.bind_eq_bind,
    Option.bind_some, hvalue, if_pos hvalid]

/-- Whether a word is an escape of `c`: the reader undoes it, and does not take its backslash for
the end of a line. -/
def IsEscape (word : List Char) (c : Char) : Prop :=
  ∃ mark w, word = '\\' :: mark :: w ∧ (isBlank mark = false ∧ mark ≠ '\n' ∧ mark ≠ '\r') ∧
    ∀ s, escape (mark :: (w ++ s)) = some (c, s)

/-- Whether a character stands for itself in a basic style. -/
structure Verbatim (quotes multiline : Bool) (c : Char) : Prop where
  plain : c = '\n' ∧ multiline = true ∨ isPlain c = true
  ne_backslash : c ≠ '\\'
  quotes : c = '"' → quotes = true

/-- A character of a basic style is verbatim or escaped. -/
theorem escapeChar_cases (quotes multiline : Bool) (c : Char) :
    (escapeChar quotes multiline c = [c] ∧ Verbatim quotes multiline c) ∨
      IsEscape (escapeChar quotes multiline c) c := by
  have hc : Char.ofNat c.toNat = c := Char.ofNat_toNat c
  unfold escapeChar
  split_ifs with hquote hquotes hslash hline hmulti htab hreturn hback hfeed hplain
  · exact .inl ⟨by rw [hquote], .inr (by rw [hquote]; rfl), by simp [hquote], fun _ => hquotes⟩
  · exact .inr ⟨'"', [], rfl, by decide, fun s => by rw [hquote]; rfl⟩
  · exact .inr ⟨'\\', [], rfl, by decide, fun s => by rw [hslash]; rfl⟩
  · exact .inl ⟨by rw [hline], .inl ⟨hline, hmulti⟩, hslash, fun h => absurd h hquote⟩
  · exact .inr ⟨'n', [], rfl, by decide, fun s => by rw [hline]; rfl⟩
  · exact .inr ⟨'t', [], rfl, by decide, fun s => by rw [htab]; rfl⟩
  · exact .inr ⟨'r', [], rfl, by decide, fun s => by rw [hreturn]; rfl⟩
  · exact .inr ⟨'b', [], rfl, by decide, fun s => by rw [← hc, hback]; rfl⟩
  · exact .inr ⟨'f', [], rfl, by decide, fun s => by rw [← hc, hfeed]; rfl⟩
  · exact .inl ⟨rfl, .inr hplain, hslash, fun h => absurd h hquote⟩
  · refine .inr ⟨'u', _, rfl, by decide, fun s => ?_⟩
    have hlt := lt_of_isPlain_eq_false (Bool.eq_false_iff.2 hplain)
    exact (escape_number hlt s).trans (by rw [hc])

/-- A written character starts with itself, a plain one or a line break, or with a backslash. -/
theorem exists_escapeChar_eq_cons (quotes multiline : Bool) (c : Char) :
    ∃ d w, escapeChar quotes multiline c = d :: w ∧
      (d = '\\' ∨ d = c ∧ (c = '"' → quotes = true) ∧ (c ≠ '\n' → isPlain c = true)) := by
  obtain ⟨h, hverbatim⟩ | ⟨mark, w, h, -⟩ := escapeChar_cases quotes multiline c
  · refine ⟨c, [], h, .inr ⟨rfl, hverbatim.quotes, fun hline => ?_⟩⟩
    exact hverbatim.plain.resolve_left fun hc => hline hc.1
  · exact ⟨_, _, h, .inl rfl⟩

theorem length_le_length_escapeAll (limit : Nat) (multiline : Bool) (run : Nat) (cs : List Char) :
    cs.length ≤ (escapeAll limit multiline run cs).length := by
  induction cs generalizing run with
  | nil => exact Nat.zero_le _
  | cons c cs ih =>
    obtain ⟨d, w, hword, -⟩ := exists_escapeChar_eq_cons (run < limit) multiline c
    have hrest := ih (if c = '"' && decide (run < limit) then run + 1 else 0)
    rw [escapeAll, hword, List.length_append, List.length_cons, List.length_cons]
    omega

/-- What is read off a text that has one more character in front. -/
def withFirst (c : Char) : Option (List Char × List Char) → Option (List Char × List Char) :=
  Option.map fun p => (c :: p.1, p.2)

/-! ### On one line -/

theorem basicTail_of_verbatim {c : Char} (h : Verbatim false false c) (fuel : Nat) (s : List Char) :
    basicTail (fuel + 1) (c :: s) = withFirst c (basicTail fuel s) := by
  have hplain : isPlain c = true := h.plain.resolve_left fun hc => Bool.false_ne_true hc.2
  rw [basicTail, if_pos hplain]
  · cases basicTail fuel s <;> rfl
  · exact fun hc => Bool.false_ne_true (h.quotes hc)
  · exact h.ne_backslash

theorem basicTail_of_isEscape {word : List Char} {c : Char} (h : IsEscape word c) (fuel : Nat)
    (s : List Char) : basicTail (fuel + 1) (word ++ s) = withFirst c (basicTail fuel s) := by
  obtain ⟨mark, w, rfl, -, hescape⟩ := h
  rw [List.cons_append, List.cons_append, basicTail, hescape s]
  simp only [Option.bind_eq_bind, Option.bind_some]
  cases basicTail fuel s <;> rfl

theorem basicTail_escapeAll (fuel run : Nat) (cs rest : List Char) (h : cs.length < fuel) :
    basicTail fuel (escapeAll 0 false run cs ++ '"' :: rest) = some (cs, rest) := by
  induction cs generalizing fuel run with
  | nil =>
    obtain ⟨fuel, rfl⟩ : ∃ k, fuel = k + 1 := Nat.exists_eq_add_one.2 h
    rfl
  | cons c cs ih =>
    obtain ⟨fuel, rfl⟩ : ∃ k, fuel = k + 1 := Nat.exists_eq_add_one.2 (by omega)
    have hlength : cs.length < fuel := Nat.lt_of_succ_lt_succ h
    have hquotes : decide (run < 0) = false := decide_eq_false (Nat.not_lt_zero run)
    rw [escapeAll, List.append_assoc, hquotes]
    obtain ⟨hword, hverbatim⟩ | hescape := escapeChar_cases false false c
    · rw [hword, List.singleton_append, basicTail_of_verbatim hverbatim, ih _ _ hlength]
      rfl
    · rw [basicTail_of_isEscape hescape, ih _ _ hlength]
      rfl

theorem literalTail_append (cs rest : List Char)
    (h : ∀ c ∈ cs, isPlain c = true ∧ c ≠ '\'') :
    literalTail (cs ++ '\'' :: rest) = some (cs, rest) := by
  induction cs with
  | nil => rfl
  | cons c cs ih =>
    obtain ⟨⟨hplain, hquote⟩, hcs⟩ := List.forall_mem_cons.1 h
    rw [List.cons_append, literalTail, if_neg hquote, if_pos hplain, ih hcs]
    rfl

/-! ### On several lines -/

theorem lineBreak?_of_isPlain {c : Char} (h : isPlain c = true) (s : List Char) :
    lineBreak? (c :: s) = none := by
  rw [lineBreak?]
  · rintro _ ⟨⟩
    exact absurd h (by decide)
  · rintro _ ⟨⟩
    exact absurd h (by decide)

theorem continuation?_eq_none {c : Char} (hblank : isBlank c = false) (hline : c ≠ '\n')
    (hreturn : c ≠ '\r') (s : List Char) : continuation? (c :: s) = none := by
  have hskip : skipBlanks (c :: s) = c :: s := by simp [skipBlanks, hblank]
  rw [continuation?, hskip, lineBreak?, Option.map_none]
  · rintro _ ⟨⟩
    exact hline rfl
  · rintro _ ⟨⟩
    exact hreturn rfl

/-- A text that starts with two quotes. -/
def Doubled (q : Char) (s : List Char) : Prop := ∃ t, s = q :: q :: t

/-- Quotes that come before the closing ones. -/
theorem extraQuotes_append {q : Char} {rest : List Char} (h : ∀ c ∈ rest.head?, c ≠ q) {k : Nat}
    (hk : k ≤ 2) : extraQuotes q (List.replicate k q ++ rest) = (List.replicate k q, rest) := by
  cases rest with
  | nil => interval_cases k <;> simp [extraQuotes, List.replicate]
  | cons c rest =>
    have hc : c ≠ q := h c rfl
    cases rest with
    | nil => interval_cases k <;> simp [extraQuotes, List.replicate, hc]
    | cons d rest => interval_cases k <;> simp [extraQuotes, List.replicate, hc]

theorem replicate_append_close {q : Char} {k : Nat} (hk : k ≤ 2) (rest : List Char) :
    List.replicate k q ++ q :: q :: q :: rest = q :: q :: q :: (List.replicate k q ++ rest) := by
  interval_cases k <;> rfl

section Basic

variable {fuel : Nat} {c : Char}

theorem multilineBasicTail_of_verbatim (h : Verbatim true true c) {s : List Char}
    (hs : c = '"' → ¬ Doubled '"' s) :
    multilineBasicTail (fuel + 1) (c :: s) = withFirst c (multilineBasicTail fuel s) := by
  obtain ⟨rfl, -⟩ | hplain := h.plain
  · cases hrest : multilineBasicTail fuel s <;>
      simp [multilineBasicTail, lineBreak?, hrest, withFirst]
  · rw [multilineBasicTail, lineBreak?_of_isPlain hplain, if_pos hplain]
    · cases multilineBasicTail fuel s <;> rfl
    · rintro t hc rfl
      exact hs hc ⟨t, rfl⟩
    · exact h.ne_backslash

theorem multilineBasicTail_of_isEscape {word : List Char} (h : IsEscape word c) (s : List Char) :
    multilineBasicTail (fuel + 1) (word ++ s) = withFirst c (multilineBasicTail fuel s) := by
  obtain ⟨mark, w, rfl, ⟨hblank, hline, hreturn⟩, hescape⟩ := h
  rw [List.cons_append, List.cons_append, multilineBasicTail,
    continuation?_eq_none hblank hline hreturn, hescape s]
  simp only [Option.bind_eq_bind, Option.bind_some]
  cases multilineBasicTail fuel s <;> rfl

/-- The closing quotes, and up to two of the text before them. -/
theorem multilineBasicTail_close {rest : List Char} (h : ∀ c ∈ rest.head?, c ≠ '"') {k : Nat}
    (hk : k ≤ 2) :
    multilineBasicTail (fuel + 1) (List.replicate k '"' ++ '"' :: '"' :: '"' :: rest) =
      some (List.replicate k '"', rest) := by
  rw [replicate_append_close hk, multilineBasicTail, extraQuotes_append h hk]

end Basic

/-- What is written starts with a quote only if the text does, and may have verbatim quotes there.
-/
theorem eq_quote_of_escapeAll {limit run : Nat} {multiline : Bool} {c : Char}
    {cs s t : List Char} (h : escapeAll limit multiline run (c :: cs) ++ s = '"' :: t) :
    c = '"' ∧ run < limit := by
  obtain ⟨d, w, hword, hd⟩ := exists_escapeChar_eq_cons (run < limit) multiline c
  rw [escapeAll, hword, List.cons_append, List.cons_append] at h
  obtain rfl : d = '"' := (List.cons.inj h).1
  obtain hd | ⟨rfl, hquotes, -⟩ := hd
  · exact absurd hd (by decide)
  · exact ⟨rfl, of_decide_eq_true (hquotes rfl)⟩

/-- A verbatim quote in front. -/
theorem escapeAll_quote {run : Nat} (hrun : run < 2) (cs : List Char) :
    escapeAll 2 true run ('"' :: cs) = '"' :: escapeAll 2 true (run + 1) cs := by
  rw [escapeAll, decide_eq_true hrun]
  rfl

/-- After a verbatim quote, the text is over, or one more verbatim quote is all that it has, or no
two quotes follow. -/
theorem escapeAll_after_quote (run : Nat) (cs rest : List Char) :
    cs = [] ∨ (cs = ['"'] ∧ run + 1 < 2) ∨
      ¬ Doubled '"' (escapeAll 2 true (run + 1) cs ++ '"' :: '"' :: '"' :: rest) := by
  cases cs with
  | nil => exact .inl rfl
  | cons d ds =>
    by_cases hlast : d :: ds = ['"'] ∧ run + 1 < 2
    · exact .inr (.inl hlast)
    · refine .inr (.inr ?_)
      rintro ⟨t, ht⟩
      obtain ⟨rfl, hrun⟩ := eq_quote_of_escapeAll ht
      have hds : ds ≠ [] := fun h => hlast ⟨by rw [h], hrun⟩
      obtain ⟨e, es, rfl⟩ := List.exists_cons_of_ne_nil hds
      -- The run has reached its limit, so a second quote that follows is escaped.
      rw [escapeAll_quote hrun, List.cons_append] at ht
      have hnext := (eq_quote_of_escapeAll (List.cons.inj ht).2).2
      omega

theorem multilineBasicTail_escapeAll (fuel run : Nat) (cs : List Char) {rest : List Char}
    (hrest : ∀ c ∈ rest.head?, c ≠ '"') (h : cs.length < fuel) :
    multilineBasicTail fuel (escapeAll 2 true run cs ++ '"' :: '"' :: '"' :: rest) =
      some (cs, rest) := by
  induction cs generalizing fuel run with
  | nil =>
    obtain ⟨fuel, rfl⟩ : ∃ k, fuel = k + 1 := Nat.exists_eq_add_one.2 h
    exact multilineBasicTail_close hrest (Nat.zero_le 2)
  | cons c cs ih =>
    obtain ⟨fuel, rfl⟩ : ∃ k, fuel = k + 1 := Nat.exists_eq_add_one.2 (by omega)
    have hlength : cs.length < fuel := Nat.lt_of_succ_lt_succ h
    -- Only a verbatim quote depends on what follows it.
    by_cases hquote : c = '"' ∧ run < 2
    · obtain ⟨rfl, hrun⟩ := hquote
      have hverbatim : Verbatim true true '"' := ⟨.inr (by decide), by decide, fun _ => rfl⟩
      obtain rfl | ⟨rfl, hnext⟩ | hfollow := escapeAll_after_quote run cs rest
      · rw [escapeAll_quote hrun]
        exact multilineBasicTail_close hrest (k := 1) (by decide)
      · rw [escapeAll_quote hrun, escapeAll_quote hnext]
        exact multilineBasicTail_close hrest (k := 2) le_rfl
      · rw [escapeAll_quote hrun, List.cons_append,
          multilineBasicTail_of_verbatim hverbatim fun _ => hfollow, ih _ _ hlength]
        rfl
    · rw [escapeAll, List.append_assoc]
      obtain ⟨hword, hverbatim⟩ | hescape := escapeChar_cases (run < 2) true c
      · have hne : c ≠ '"' := fun hc => hquote ⟨hc, of_decide_eq_true (hverbatim.quotes hc)⟩
        have hallowed : Verbatim true true c :=
          ⟨hverbatim.plain, hverbatim.ne_backslash, fun _ => rfl⟩
        rw [hword, List.singleton_append,
          multilineBasicTail_of_verbatim hallowed fun hc => absurd hc hne, ih _ _ hlength]
        rfl
      · rw [multilineBasicTail_of_isEscape hescape, ih _ _ hlength]
        rfl

section Literal

variable {fuel : Nat} {c : Char}

theorem multilineLiteralTail_of_plain (h : c = '\n' ∨ isPlain c = true) {s : List Char}
    (hs : c = '\'' → ¬ Doubled '\'' s) :
    multilineLiteralTail (fuel + 1) (c :: s) = withFirst c (multilineLiteralTail fuel s) := by
  obtain rfl | hplain := h
  · cases hrest : multilineLiteralTail fuel s <;>
      simp [multilineLiteralTail, lineBreak?, hrest, withFirst]
  · rw [multilineLiteralTail, lineBreak?_of_isPlain hplain, if_pos hplain]
    · cases multilineLiteralTail fuel s <;> rfl
    · rintro t hc rfl
      exact hs hc ⟨t, rfl⟩

/-- The closing quotes, and up to two of the text before them. -/
theorem multilineLiteralTail_close {rest : List Char} (h : ∀ c ∈ rest.head?, c ≠ '\'') {k : Nat}
    (hk : k ≤ 2) :
    multilineLiteralTail (fuel + 1) (List.replicate k '\'' ++ '\'' :: '\'' :: '\'' :: rest) =
      some (List.replicate k '\'', rest) := by
  rw [replicate_append_close hk, multilineLiteralTail, extraQuotes_append h hk]

end Literal

theorem le_longestRun (q : Char) (run : Nat) (cs : List Char) : run ≤ longestRun q run cs := by
  induction cs generalizing run with
  | nil => exact le_rfl
  | cons c cs ih =>
    rw [longestRun]
    split_ifs
    · exact (Nat.le_succ run).trans (ih (run + 1))
    · exact Nat.le_max_left _ _

/-- Where no more than two quotes follow each other, after a quote the text is over, or one more
quote is all that it has, or no two quotes follow. -/
theorem append_after_quote {run : Nat} {cs : List Char} (h : longestRun '\'' (run + 1) cs ≤ 2)
    (rest : List Char) :
    cs = [] ∨ cs = ['\''] ∨ ¬ Doubled '\'' (cs ++ '\'' :: '\'' :: '\'' :: rest) := by
  rcases cs with _ | ⟨c, _ | ⟨d, cs⟩⟩
  · exact .inl rfl
  · by_cases hc : c = '\''
    · exact .inr (.inl (by rw [hc]))
    · exact .inr (.inr fun ⟨t, ht⟩ => hc (List.cons.inj ht).1)
  · refine .inr (.inr ?_)
    rintro ⟨t, ht⟩
    obtain ⟨rfl, ht'⟩ := List.cons.inj ht
    obtain ⟨rfl, -⟩ := List.cons.inj ht'
    rw [longestRun, if_pos rfl, longestRun, if_pos rfl] at h
    have hrun := le_longestRun '\'' (run + 1 + 1 + 1) cs
    omega

theorem multilineLiteralTail_append (fuel run : Nat) (cs : List Char) {rest : List Char}
    (hcs : ∀ c ∈ cs, c = '\n' ∨ isPlain c = true) (hrun : longestRun '\'' run cs ≤ 2)
    (hrest : ∀ c ∈ rest.head?, c ≠ '\'') (h : cs.length < fuel) :
    multilineLiteralTail fuel (cs ++ '\'' :: '\'' :: '\'' :: rest) = some (cs, rest) := by
  induction cs generalizing fuel run with
  | nil =>
    obtain ⟨fuel, rfl⟩ : ∃ k, fuel = k + 1 := Nat.exists_eq_add_one.2 h
    exact multilineLiteralTail_close hrest (Nat.zero_le 2)
  | cons c cs ih =>
    obtain ⟨fuel, rfl⟩ : ∃ k, fuel = k + 1 := Nat.exists_eq_add_one.2 (by omega)
    have hlength : cs.length < fuel := Nat.lt_of_succ_lt_succ h
    obtain ⟨hc, htail⟩ := List.forall_mem_cons.1 hcs
    rw [longestRun] at hrun
    by_cases hquote : c = '\''
    · subst hquote
      rw [if_pos rfl] at hrun
      obtain rfl | rfl | hfollow := append_after_quote hrun rest
      · exact multilineLiteralTail_close hrest (k := 1) (by decide)
      · exact multilineLiteralTail_close hrest (k := 2) le_rfl
      · rw [List.cons_append, multilineLiteralTail_of_plain hc fun _ => hfollow,
          ih _ _ htail hrun hlength]
        rfl
    · rw [if_neg hquote] at hrun
      rw [List.cons_append, multilineLiteralTail_of_plain hc fun h => absurd h hquote,
        ih _ _ htail ((Nat.le_max_right _ _).trans hrun) hlength]
      rfl

/-! ### All styles -/

/-- Whether a text may be written in a style. Basic styles take every text. -/
def Style.Takes : Style → List Char → Prop
  | .basic, _ => True
  | .literal, cs => ∀ c ∈ cs, isPlain c = true ∧ c ≠ '\''
  | .multilineBasic, _ => True
  | .multilineLiteral, cs =>
    (∀ c ∈ cs, c = '\n' ∨ isPlain c = true) ∧ longestRun '\'' 0 cs ≤ 2

theorem not_mem_of_longestRun {q : Char} {cs : List Char} (h : longestRun q 0 cs = 0) :
    q ∉ cs := by
  induction cs with
  | nil => exact List.not_mem_nil
  | cons c cs ih =>
    rw [longestRun] at h
    split_ifs at h with hc
    · have hrun := le_longestRun q (0 + 1) cs
      omega
    · rw [List.mem_cons, not_or]
      exact ⟨fun hq => hc hq.symm, ih (by omega)⟩

/-- A text is written in a style that takes it. -/
theorem takes_styleOf (cs : List Char) : (styleOf cs).Takes cs := by
  have hescapes : cs.any needsEscape = false → ∀ c ∈ cs, c = '\n' ∨ isPlain c = true := by
    intro h c hc
    have hne := List.any_eq_false.1 h c hc
    by_cases hline : c = '\n'
    · exact .inl hline
    · exact .inr (by simpa [needsEscape, hline] using hne)
  simp only [styleOf]
  split_ifs with hbasic hliteral hmultiBasic hmultiLiteral hbroken
  · trivial
  · simp only [Bool.and_eq_true, Bool.not_eq_true', beq_iff_eq] at hliteral
    obtain ⟨⟨hplain, hbroken⟩, hsingle⟩ := hliteral
    intro c hc
    have hline : c ≠ '\n' := by
      rintro rfl
      simp [hc] at hbroken
    refine ⟨(hescapes hplain c hc).resolve_left hline, ?_⟩
    rintro rfl
    exact not_mem_of_longestRun hsingle hc
  · trivial
  · simp only [Bool.and_eq_true, Bool.not_eq_true', decide_eq_true_eq] at hmultiLiteral
    exact ⟨hescapes hmultiLiteral.1, hmultiLiteral.2⟩
  · trivial
  · trivial

theorem anyText_of_not_doubled {q : Char} {s : List Char} (h : ¬ Doubled q s) :
    anyText (q :: s) = lineText (q :: s) := by
  rw [anyText]
  · rintro t ⟨⟩
    exact h ⟨t, rfl⟩
  · rintro t ⟨⟩
    exact h ⟨t, rfl⟩

/-- The line break after the opening quotes is taken back. -/
theorem skipLineBreak_openingBreak {cs body : List Char}
    (h : '\n' ∉ cs → ∃ c s, body = c :: s ∧ isPlain c = true) :
    skipLineBreak (openingBreak cs ++ body) = body := by
  by_cases hline : '\n' ∈ cs
  · simp [openingBreak, hline, skipLineBreak, lineBreak?]
  · obtain ⟨c, s, rfl, hc⟩ := h hline
    simp [openingBreak, hline, skipLineBreak, lineBreak?_of_isPlain hc]

theorem exists_escapeAll_eq_cons {cs : List Char} (hline : '\n' ∉ cs) (rest : List Char) :
    ∃ c s, escapeAll 2 true 0 cs ++ '"' :: rest = c :: s ∧ isPlain c = true := by
  cases cs with
  | nil => exact ⟨'"', rest, rfl, by decide⟩
  | cons c cs =>
    obtain ⟨d, w, hword, hd⟩ := exists_escapeChar_eq_cons (0 < 2) true c
    rw [escapeAll, hword]
    refine ⟨d, _, rfl, ?_⟩
    obtain rfl | ⟨rfl, -, hplain⟩ := hd
    · decide
    · exact hplain fun h => hline (h ▸ List.mem_cons_self)

section Styles

variable {cs rest : List Char}

theorem anyText_basic (hrest : ∀ c ∈ rest.head?, c ≠ '"') :
    anyText (quoteAs .basic cs ++ rest) = some (cs, rest) := by
  have hlength := length_le_length_escapeAll 0 false 0 cs
  have hfollow : ¬ Doubled '"' (escapeAll 0 false 0 cs ++ '"' :: rest) := by
    rintro ⟨t, ht⟩
    cases cs with
    | nil =>
      obtain rfl : rest = '"' :: t := (List.cons.inj ht).2
      exact hrest '"' rfl rfl
    | cons c cs => exact absurd (eq_quote_of_escapeAll ht).2 (Nat.not_lt_zero 0)
  rw [quoteAs, List.cons_append, List.append_assoc, List.singleton_append,
    anyText_of_not_doubled hfollow, lineText, basicTail_escapeAll]
  rw [List.length_append]
  omega

theorem anyText_literal (h : Style.literal.Takes cs) (hrest : ∀ c ∈ rest.head?, c ≠ '\'') :
    anyText (quoteAs .literal cs ++ rest) = some (cs, rest) := by
  have hfollow : ¬ Doubled '\'' (cs ++ '\'' :: rest) := by
    rintro ⟨t, ht⟩
    cases cs with
    | nil =>
      obtain rfl : rest = '\'' :: t := (List.cons.inj ht).2
      exact hrest '\'' rfl rfl
    | cons c cs => exact (h c List.mem_cons_self).2 (List.cons.inj ht).1
  rw [quoteAs, List.cons_append, List.append_assoc, List.singleton_append,
    anyText_of_not_doubled hfollow, lineText, literalTail_append cs rest h]

theorem anyText_multilineBasic (hrest : ∀ c ∈ rest.head?, c ≠ '"') :
    anyText (quoteAs .multilineBasic cs ++ rest) = some (cs, rest) := by
  have hlength := length_le_length_escapeAll 2 true 0 cs
  simp only [quoteAs, List.cons_append, List.append_assoc, List.nil_append]
  rw [anyText, skipLineBreak_openingBreak fun hline => exists_escapeAll_eq_cons hline _,
    multilineBasicTail_escapeAll _ _ cs hrest]
  simp only [List.length_append]
  omega

theorem anyText_multilineLiteral (h : Style.multilineLiteral.Takes cs)
    (hrest : ∀ c ∈ rest.head?, c ≠ '\'') :
    anyText (quoteAs .multilineLiteral cs ++ rest) = some (cs, rest) := by
  obtain ⟨hcs, hrun⟩ := h
  have hbody : '\n' ∉ cs → ∃ c s, cs ++ '\'' :: '\'' :: '\'' :: rest = c :: s ∧
      isPlain c = true := by
    intro hline
    cases cs with
    | nil => exact ⟨_, _, rfl, by decide⟩
    | cons c cs =>
      refine ⟨c, _, rfl, (hcs c List.mem_cons_self).resolve_left ?_⟩
      exact fun h => hline (h ▸ List.mem_cons_self)
  simp only [quoteAs, List.cons_append, List.append_assoc, List.nil_append]
  rw [anyText, skipLineBreak_openingBreak hbody, multilineLiteralTail_append _ _ cs hcs hrun hrest]
  simp only [List.length_append]
  omega

/-- **Quoted texts.** A text that is written in a style that takes it is read back. -/
theorem anyText_quoteAs {style : Style} (h : style.Takes cs)
    (hrest : ∀ c ∈ rest.head?, c ≠ '"' ∧ c ≠ '\'') :
    anyText (quoteAs style cs ++ rest) = some (cs, rest) := by
  have hdouble : ∀ c ∈ rest.head?, c ≠ '"' := fun c hc => (hrest c hc).1
  have hsingle : ∀ c ∈ rest.head?, c ≠ '\'' := fun c hc => (hrest c hc).2
  cases style with
  | basic => exact anyText_basic hdouble
  | literal => exact anyText_literal h hsingle
  | multilineBasic => exact anyText_multilineBasic hdouble
  | multilineLiteral => exact anyText_multilineLiteral h hsingle

end Styles

/-- A written text is read back, whatever characters it has. -/
theorem anyText_quote (t : String) {rest : List Char}
    (hrest : ∀ c ∈ rest.head?, c ≠ '"' ∧ c ≠ '\'') :
    anyText (quote t ++ rest) = some (t.toList, rest) :=
  anyText_quoteAs (takes_styleOf t.toList) hrest

-- Of three quotes the last is escaped, while two at the end stand before the closing ones.
example : quote "\"\"\"\n\r\"\"" = ['"', '"', '"', '\n', '"', '"', '\\', '"', '\n', '\\', 'r',
    '"', '"', '"', '"', '"'] := by
  decide

/-- A written text starts with a quote. -/
theorem exists_quote_eq_cons (t : String) :
    ∃ q s, quote t = q :: s ∧ (q = '"' ∨ q = '\'') := by
  rw [quote]
  cases styleOf t.toList with
  | basic => exact ⟨_, _, rfl, .inl rfl⟩
  | literal => exact ⟨_, _, rfl, .inr rfl⟩
  | multilineBasic => exact ⟨_, _, rfl, .inl rfl⟩
  | multilineLiteral => exact ⟨_, _, rfl, .inr rfl⟩

end Toml

end NextLedger
