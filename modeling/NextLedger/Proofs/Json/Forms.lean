import NextLedger.Proofs.Json.Tokens
import NextLedger.Proofs.Text.Hex

/-!
# Reading lists and records back

A form **reads back** a value if its reader takes the printed value off the front of every text,
compact or indented and however deep it stands. Each way to build forms keeps this: one lemma for
lists, one for records, one for options and choices.

A printed value starts with a character that is no blank and closes no list, so a list that goes on
is never taken for one that ends. For records the members that were written are **collected** one
after the other: each finds its field unset and sets it. Collecting looks fields up by membership
only; that a name leads to its own field needs all names of the record to differ, which is asked
once, when the record is made.
-/

namespace NextLedger

namespace Json

variable {α β P Q : Type}

/-! ### First characters and blanks -/

theorem isBlank_of_isDigit {c : Char} (h : c.isDigit = true) :
    isBlank c = false ∧ c ≠ ']' ∧ c ≠ 'n' := by
  refine ⟨Bool.eq_false_iff.2 fun hblank => ?_, ?_, ?_⟩
  · have hcases : ((c = ' ' ∨ c = '\t') ∨ c = '\n') ∨ c = '\r' := by simpa [isBlank] using hblank
    rcases hcases with ((rfl | rfl) | rfl) | rfl <;> exact absurd h (by decide)
  · rintro rfl
    exact absurd h (by decide)
  · rintro rfl
    exact absurd h (by decide)

/-- The first character of a printed value. -/
theorem exists_render_eq_cons (layout : Layout) (depth : Nat) (j : Json) :
    ∃ c cs, render layout depth j = c :: cs ∧
      isBlank c = false ∧ c ≠ ']' ∧ (c = 'n' → j = .null) := by
  match j with
  | .null => exact ⟨_, _, rfl, by decide, by decide, fun _ => rfl⟩
  | .int n =>
    obtain ⟨c, cs, hdecimal, rfl | hc⟩ := exists_decimal_eq_cons n
    · exact ⟨_, _, hdecimal, by decide, by decide, fun h => absurd h (by decide)⟩
    · obtain ⟨hblank, hclose, hn⟩ := isBlank_of_isDigit hc
      exact ⟨c, cs, hdecimal, hblank, hclose, fun h => absurd h hn⟩
  | .text _ => exact ⟨_, _, rfl, by decide, by decide, fun h => absurd h (by decide)⟩
  | .list [] | .list (_ :: _) =>
    exact ⟨_, _, rfl, by decide, by decide, fun h => absurd h (by decide)⟩
  | .record [] | .record ((_, _) :: _) =>
    exact ⟨_, _, rfl, by decide, by decide, fun h => absurd h (by decide)⟩

@[simp] theorem skipBlanks_render (layout : Layout) (depth : Nat) (j : Json) (rest : List Char) :
    skipBlanks (render layout depth j ++ rest) = render layout depth j ++ rest := by
  obtain ⟨c, cs, hrender, hblank, -⟩ := exists_render_eq_cons layout depth j
  rw [hrender, List.cons_append, skipBlanks_cons hblank]

@[simp] theorem skipBlanks_lineBreak (layout : Layout) (depth : Nat) (s : List Char) :
    skipBlanks (layout.lineBreak depth ++ s) = skipBlanks s := by
  cases layout with
  | compact => rfl
  | indented =>
    have hblank : ∀ c ∈ Layout.lineBreak .indented depth, isBlank c = true := by
      intro c hc
      rcases List.mem_cons.1 hc with rfl | hc
      · rfl
      · rw [List.eq_of_mem_replicate hc]
        rfl
    exact List.dropWhile_append_of_pos hblank

theorem ends_cons {c : Char} (h : c ∈ [',', ']', '}', '\n']) (s : List Char) : Ends (c :: s) := by
  intro d hd
  obtain rfl : c = d := by simpa using hd
  exact h

theorem ends_lineBreak {c : Char} (h : c ∈ [',', ']', '}', '\n']) (layout : Layout) (depth : Nat)
    (s : List Char) : Ends (layout.lineBreak depth ++ c :: s) := by
  cases layout with
  | compact => exact ends_cons h s
  | indented => exact ends_cons (by decide) _

theorem ends_renderItems (layout : Layout) (depth : Nat) (js : List Json) {s : List Char}
    (h : Ends s) : Ends (renderItems layout depth js ++ s) := by
  cases js with
  | nil => exact h
  | cons j js => exact ends_cons (by decide) _

theorem ends_renderMembers (layout : Layout) (depth : Nat) (ms : List (String × Json))
    {s : List Char} (h : Ends s) : Ends (renderMembers layout depth ms ++ s) := by
  match ms with
  | [] => exact h
  | (_, _) :: _ => exact ends_cons (by decide) _

/-- A reader of a printed value reads it where it stands. -/
theorem Reads.apply {r : Reader α} {layout : Layout} {depth : Nat} {j : Json} {a : α}
    (h : Reads r (render layout depth j) a) {rest : List Char} (hrest : Ends rest) :
    r (render layout depth j ++ rest) = .ok (a, rest) :=
  h _ rest hrest (skipBlanks_render layout depth j rest)

/-- Whether a form reads back what it writes for `a`, however it is laid out. -/
def Form.ReadsBack (f : Form α) (a : α) : Prop :=
  ∀ layout depth, Reads f.read (render layout depth (f.write a)) a

theorem Form.ReadsBack.via {f : Form α} {make : α → β} {view : β → α} {b : β}
    (h : f.ReadsBack (view b)) (hmake : make (view b) = b) : (f.via make view).ReadsBack b := by
  intro layout depth
  have hmap := (h layout depth).map make
  rw [hmake] at hmap
  exact hmap

/-! ### Lists -/

section Lists

variable (layout : Layout) (depth : Nat)

theorem nextItem_first (outer : Nat) (j : Json) (rest : List Char) :
    nextItem true (layout.lineBreak outer ++ (render layout depth j ++ rest)) =
      .ok (.more (render layout depth j ++ rest)) := by
  obtain ⟨c, cs, hrender, hblank, hclose, -⟩ := exists_render_eq_cons layout depth j
  rw [hrender, List.cons_append]
  simp [nextItem, hblank]

theorem nextItem_comma (outer : Nat) (j : Json) (rest : List Char) :
    nextItem false (',' :: (layout.lineBreak outer ++ (render layout depth j ++ rest))) =
      .ok (.more (render layout depth j ++ rest)) := by
  obtain ⟨c, cs, hrender, hblank, hclose, -⟩ := exists_render_eq_cons layout depth j
  rw [hrender, List.cons_append]
  simp [nextItem, hblank, hclose]

theorem nextItem_done (first : Bool) (rest : List Char) :
    nextItem first (layout.lineBreak depth ++ ']' :: rest) = .ok (.done rest) := by
  simp [nextItem]

theorem closeList_lineBreak (rest : List Char) :
    closeList (layout.lineBreak depth ++ ']' :: rest) = .ok rest := by
  simp [closeList]

theorem length_le_length_renderItems (js : List Json) :
    js.length ≤ (renderItems layout depth js).length := by
  induction js with
  | nil => exact Nat.zero_le _
  | cons j js ih =>
    simp only [renderItems, List.length_cons, List.length_append]
    omega

variable {layout depth} {f : Form α} {as : List α} (h : ∀ a ∈ as, f.ReadsBack a)
include h

/-- The items after the first are read to the end of the list. -/
theorem items_renderItems (outer : Nat) {fuel : Nat} (hfuel : as.length < fuel)
    (rest : List Char) :
    items f.read fuel false
      (renderItems layout depth (as.map f.write) ++ (layout.lineBreak outer ++ ']' :: rest)) =
      .ok (as, rest) := by
  induction as generalizing fuel with
  | nil =>
    obtain ⟨fuel, rfl⟩ : ∃ k, fuel = k + 1 := Nat.exists_eq_add_one.2 hfuel
    simp only [List.map_nil, renderItems, List.nil_append, items, nextItem_done, bind, Except.bind]
  | cons a as ih =>
    obtain ⟨fuel, rfl⟩ : ∃ k, fuel = k + 1 := Nat.exists_eq_add_one.2 (by omega)
    have hends := ends_renderItems layout depth (as.map f.write)
      (ends_lineBreak (c := ']') (by decide) layout outer rest)
    have hitem := (h a List.mem_cons_self layout depth).apply hends
    have htail := ih (fun b hb => h b (List.mem_cons_of_mem a hb)) (Nat.lt_of_succ_lt_succ hfuel)
    simp only [List.map_cons, renderItems, List.cons_append, List.append_assoc, items,
      nextItem_comma, bind, Except.bind, hitem, htail, pure, Except.pure]

/-- The items after the first are read as far as asked for. -/
theorem itemsExactly_renderItems {tail : List Char} (htail : Ends tail) :
    itemsExactly f.read as.length false (renderItems layout depth (as.map f.write) ++ tail) =
      .ok (as, tail) := by
  induction as with
  | nil => rfl
  | cons a as ih =>
    have hitem := (h a List.mem_cons_self layout depth).apply
      (ends_renderItems layout depth (as.map f.write) htail)
    have hrest := ih fun b hb => h b (List.mem_cons_of_mem a hb)
    simp only [List.length_cons, List.map_cons, renderItems, List.cons_append, List.append_assoc,
      itemsExactly, nextItem_comma, bind, Except.bind, hitem, hrest, pure, Except.pure]

/-- **Lists.** A list is read back if its items are. -/
theorem Form.ReadsBack.list : (Form.list f).ReadsBack as := by
  intro layout depth s rest hrest hs
  cases as with
  | nil =>
    have htext : skipBlanks s = '[' :: ']' :: rest := hs
    simp only [Form.list, htext]
    rfl
  | cons a as =>
    have hends := ends_renderItems layout (depth + 1) (as.map f.write)
      (ends_lineBreak (c := ']') (by decide) layout depth rest)
    have hitem := (h a List.mem_cons_self layout (depth + 1)).apply hends
    have hfuel := length_le_length_renderItems layout (depth + 1) (as.map f.write)
    simp only [Form.list, List.map_cons, render, List.cons_append, List.append_assoc,
      List.nil_append] at hs
    simp only [Form.list, hs, items, nextItem_first, bind, Except.bind, hitem]
    rw [items_renderItems (fun b hb => h b (List.mem_cons_of_mem a hb)) depth _ rest]
    · rfl
    · simp only [List.length_map, List.length_append, List.length_cons] at hfuel ⊢
      omega

end Lists

/-! ### Records -/

/-- Fields that take up members one after the other. Each member finds its field unset, and its
value is read back. -/
inductive Collects (fields : List (Field P)) : P → List (String × Json) → P → Prop
  | nil (p : P) : Collects fields p [] p
  | cons {field : Field P} {p p' q : P} {j : Json} {ms : List (String × Json)}
    (hmem : field ∈ fields) (hset : field.isSet p = false)
    (hread : ∀ layout depth, Reads (field.read p) (render layout depth j) p')
    (hrest : Collects fields p' ms q) : Collects fields p ((field.name, j) :: ms) q

namespace Collects

theorem append {fields : List (Field P)} {p q r : P} {ms ns : List (String × Json)}
    (h : Collects fields p ms q) (h' : Collects fields q ns r) :
    Collects fields p (ms ++ ns) r := by
  induction h with
  | nil => exact h'
  | cons hmem hset hread _ ih => exact .cons hmem hset hread (ih h')

variable {F : Fields P α} {G : Fields Q β} {ms : List (String × Json)}

theorem and_left {p q : P} (h : Collects F.fields p ms q) (r : Q) :
    Collects (F.and G).fields (p, r) ms (q, r) := by
  induction h with
  | nil => exact .nil _
  | cons hmem hset hread _ ih =>
    exact .cons (List.mem_append_left _ (List.mem_map_of_mem hmem)) hset
      (fun layout depth => (hread layout depth).map _) ih

theorem and_right {p q : Q} (h : Collects G.fields p ms q) (r : P) :
    Collects (F.and G).fields (r, p) ms (r, q) := by
  induction h with
  | nil => exact .nil _
  | cons hmem hset hread _ ih =>
    exact .cons (List.mem_append_right _ (List.mem_map_of_mem hmem)) hset
      (fun layout depth => (hread layout depth).map _) ih

end Collects

namespace Fields

/-- The names of the members that a record may have. -/
def names (F : Fields P α) : List String := F.fields.map Field.name

/-- Whether the members that are written for `a` are collected into `a` again. -/
def ReadsBack (F : Fields P α) (a : α) : Prop :=
  ∃ q, Collects F.fields F.start (F.write a) q ∧ F.finish q = some a

theorem ReadsBack.one {f : Form α} {default : Option α} {write : α → Option Json} {a : α}
    (name : String)
    (hwritten : ∀ j, write a = some j → ∀ layout depth, Reads f.read (render layout depth j) a)
    (hleft : write a = none → default = some a) : (one name f default write).ReadsBack a := by
  cases hwrite : write a with
  | none =>
    refine ⟨none, ?_, hleft hwrite⟩
    simpa [Fields.one, hwrite] using Collects.nil none
  | some j =>
    have hfield : (⟨name, Option.isSome, fun _ => Reader.map some f.read⟩ : Field (Option α)) ∈
        (Fields.one name f default write).fields := List.mem_singleton_self _
    have hcollects := Collects.cons (p := none) hfield rfl
      (fun layout depth => (hwritten j hwrite layout depth).map some) (.nil (some a))
    refine ⟨some a, ?_, rfl⟩
    simpa [Fields.one, hwrite] using hcollects

theorem ReadsBack.required {f : Form α} {a : α} (name : String) (h : f.ReadsBack a) :
    (required name f).ReadsBack a :=
  .one name (fun j hj => by cases hj; exact h) (fun hleft => by cases hleft)

theorem ReadsBack.defaulted {f : Form α} {a : α} (name : String) (default : α)
    (h : f.ReadsBack a) : (defaulted name f default).ReadsBack a :=
  .one name (fun j hj => by cases hj; exact h) (fun hleft => by cases hleft)

theorem ReadsBack.and {F : Fields P α} {G : Fields Q β} {a : α} {b : β} (hF : F.ReadsBack a)
    (hG : G.ReadsBack b) : (F.and G).ReadsBack (a, b) := by
  obtain ⟨q, hq, hqa⟩ := hF
  obtain ⟨r, hr, hrb⟩ := hG
  refine ⟨(q, r), (hq.and_left G.start).append (hr.and_right q), ?_⟩
  simp only [Fields.and, hqa, hrb]
  rfl

end Fields

section Records

variable (layout : Layout) (depth : Nat)

theorem nextMember_first (name : String) (rest : List Char) :
    nextMember true (layout.lineBreak depth ++ (quoted name ++ rest)) =
      .ok (.more (name.toList.flatMap escapeChar ++ '"' :: rest)) := by
  simp [nextMember, quoted_append]

theorem nextMember_comma (name : String) (rest : List Char) :
    nextMember false (',' :: (layout.lineBreak depth ++ (quoted name ++ rest))) =
      .ok (.more (name.toList.flatMap escapeChar ++ '"' :: rest)) := by
  simp [nextMember, quoted_append]

theorem nextMember_done (first : Bool) (rest : List Char) :
    nextMember first (layout.lineBreak depth ++ '}' :: rest) = .ok (.done rest) := by
  simp [nextMember]

theorem closeRecord_lineBreak (rest : List Char) :
    closeRecord (layout.lineBreak depth ++ '}' :: rest) = .ok rest := by
  simp [closeRecord]

/-- A colon is read; what it leaves may start with the blank after it. -/
theorem exists_colon_eq_ok (s : List Char) :
    ∃ s', colon (layout.colon ++ s) = .ok s' ∧ skipBlanks s' = skipBlanks s := by
  cases layout with
  | compact => exact ⟨s, by simp [colon, Layout.colon], rfl⟩
  | indented => exact ⟨' ' :: s, by simp [colon, Layout.colon], rfl⟩

/-- After a colon a printed value is read. -/
theorem exists_colon_bind {r : Reader α} {j : Json} {a : α}
    (h : Reads r (render layout depth j) a) {rest : List Char} (hrest : Ends rest) :
    ∃ s, colon (layout.colon ++ (render layout depth j ++ rest)) = .ok s ∧
      r s = .ok (a, rest) := by
  obtain ⟨s, hcolon, hblanks⟩ := exists_colon_eq_ok layout (render layout depth j ++ rest)
  exact ⟨s, hcolon, h s rest hrest (hblanks.trans (skipBlanks_render ..))⟩

theorem length_le_length_renderMembers (ms : List (String × Json)) :
    ms.length ≤ (renderMembers layout depth ms).length := by
  induction ms with
  | nil => exact Nat.zero_le _
  | cons m ms ih =>
    simp only [renderMembers, List.length_cons, List.length_append]
    omega

theorem find?_of_nodup {fields : List (Field P)} (hnames : (fields.map Field.name).Nodup)
    {field : Field P} (h : field ∈ fields) :
    fields.find? (fun other => other.name == field.name) = some field := by
  induction fields with
  | nil => cases h
  | cons first fields ih =>
    obtain ⟨hfirst, hrest⟩ := List.nodup_cons.1 hnames
    rcases List.mem_cons.1 h with rfl | h
    · simp
    · have hne : first.name ≠ field.name := fun heq =>
        hfirst (heq ▸ List.mem_map_of_mem h)
      rw [List.find?_cons, beq_eq_false_iff_ne.2 hne, ih hrest h]

variable {layout depth} {fields : List (Field P)} (hnames : (fields.map Field.name).Nodup)
include hnames

/-- A member is read into the field of its name. -/
theorem members_more {field : Field P} {p p' : P} {j : Json} {s rest : List Char} {first : Bool}
    (fuel : Nat) (hmem : field ∈ fields) (hset : field.isSet p = false)
    (hread : Reads (field.read p) (render layout depth j) p') (hrest : Ends rest)
    (hnext : nextMember first s = .ok (.more (field.name.toList.flatMap escapeChar ++
      '"' :: (layout.colon ++ (render layout depth j ++ rest))))) :
    members fields (fuel + 1) first p s = members fields fuel false p' rest := by
  obtain ⟨s', hcolon, hvalue⟩ := exists_colon_bind layout depth hread hrest
  simp only [members, hnext, bind, Except.bind, textTail_escaped, find?_of_nodup hnames hmem, hset,
    Bool.false_eq_true, if_false, hcolon, hvalue]

/-- The members after the first are read to the end of the record. -/
theorem members_renderMembers {p q : P} {ms : List (String × Json)} (h : Collects fields p ms q)
    (outer : Nat) {fuel : Nat} (hfuel : ms.length < fuel) (rest : List Char) :
    members fields fuel false p
      (renderMembers layout depth ms ++ (layout.lineBreak outer ++ '}' :: rest)) =
      .ok (q, rest) := by
  induction h generalizing fuel with
  | nil =>
    obtain ⟨fuel, rfl⟩ : ∃ k, fuel = k + 1 := Nat.exists_eq_add_one.2 hfuel
    simp only [renderMembers, List.nil_append, members, nextMember_done, bind, Except.bind]
  | @cons field p p' q j ms hmem hset hread hrest ih =>
    obtain ⟨fuel, rfl⟩ : ∃ k, fuel = k + 1 := Nat.exists_eq_add_one.2 (by omega)
    have hends := ends_renderMembers layout depth ms
      (ends_lineBreak (c := '}') (by decide) layout outer rest)
    rw [members_more hnames fuel hmem hset (hread layout depth) hends]
    · exact ih (Nat.lt_of_succ_lt_succ hfuel)
    · simp only [renderMembers, List.cons_append, List.append_assoc, nextMember_comma]

end Records

/-- **Records.** A record whose names differ is read back if its members are collected. -/
theorem Form.ReadsBack.record {F : Fields P α} (hnames : F.names.Nodup) {a : α}
    (h : F.ReadsBack a) : (Form.record F).ReadsBack a := by
  intro layout depth s rest hrest hs
  obtain ⟨q, hcollects, hfinish⟩ := h
  have hmembers : ∃ s', skipBlanks s = '{' :: s' ∧
      members F.fields (s'.length + 1) true F.start s' = .ok (q, rest) := by
    simp only [Form.record] at hs
    cases hwrite : F.write a with
    | nil =>
      rw [hwrite] at hs hcollects
      cases hcollects
      exact ⟨_, hs, rfl⟩
    | cons m ms =>
      rw [hwrite] at hs hcollects
      cases hcollects with
      | @cons field _ p' _ j _ hmem hset hread hcollects =>
        simp only [render, List.cons_append, List.append_assoc, List.nil_append] at hs
        have hends := ends_renderMembers layout (depth + 1) ms
          (ends_lineBreak (c := '}') (by decide) layout depth rest)
        have hlength := length_le_length_renderMembers layout (depth + 1) ms
        refine ⟨_, hs, ?_⟩
        rw [members_more hnames _ hmem hset (hread layout (depth + 1)) hends
          (nextMember_first ..)]
        refine members_renderMembers hnames hcollects depth ?_ rest
        simp only [List.length_append, List.length_cons] at hlength ⊢
        omega
  obtain ⟨s', htext, hmembers⟩ := hmembers
  simp only [Form.record, htext, hmembers, bind, Except.bind, hfinish]

/-! ### Options and choices -/

/-- **Options.** A value that may be absent is read back if it is not written as nothing. -/
theorem Form.ReadsBack.option {f : Form α} {o : Option α}
    (h : ∀ a ∈ o, f.ReadsBack a ∧ f.write a ≠ .null) : (Form.option f).ReadsBack o := by
  intro layout depth s rest hrest hs
  cases o with
  | none =>
    have htext : skipBlanks s = 'n' :: 'u' :: 'l' :: 'l' :: rest := hs
    simp only [Form.option, htext]
    rfl
  | some a =>
    obtain ⟨hback, hnull⟩ := h a rfl
    have hread := (hback layout depth).apply hrest
    obtain ⟨c, cs, hrender, -, -, hn⟩ := exists_render_eq_cons layout depth (f.write a)
    have hc : c ≠ 'n' := fun heq => hnull (hn heq)
    simp only [Form.option] at hs
    rw [hrender, List.cons_append] at hs hread
    simp [Form.option, hs, hc, Reader.map, hread]

theorem Fields.ReadsBack.omitted {f : Form α} {o : Option α} (name : String)
    (h : ∀ a ∈ o, f.ReadsBack a ∧ f.write a ≠ .null) : (Fields.omitted name f).ReadsBack o := by
  refine .one name (fun j hj => ?_) fun hleft => ?_
  · obtain ⟨a, rfl, rfl⟩ := Option.map_eq_some_iff.1 hj
    exact Form.ReadsBack.option h
  · rw [Option.map_eq_none_iff.1 hleft]

/-- A record with one member is read by the reader that its name chooses. -/
theorem reads_choice {find : String → Option (Reader α)} {name : String} {r : Reader α} {j : Json}
    {a : α} (hfind : find name = some r)
    (h : ∀ layout depth, Reads r (render layout depth j) a) (layout : Layout) (depth : Nat) :
    Reads (choice find) (render layout depth (.record [(name, j)])) a := by
  intro s rest hrest hs
  have hends := ends_lineBreak (c := '}') (by decide) layout depth rest
  obtain ⟨s', hcolon, hvalue⟩ :=
    exists_colon_bind layout (depth + 1) (h layout (depth + 1)) hends
  simp only [render, renderMembers, List.cons_append, List.append_assoc, List.nil_append,
    quoted_append] at hs
  simp only [choice, hs, alternative, firstName, skipBlanks_lineBreak, skipBlanks_cons,
    isBlank_marks, textTail_escaped, bind, Except.bind, hfind, hcolon, pure, Except.pure, hvalue,
    closeRecord_lineBreak]

/-! ### Integers, texts and octets -/

namespace Form

theorem ReadsBack.integer {least greatest : Int} {make : Int → α} {view : α → Int} {a : α}
    (hlow : least ≤ view a) (hhigh : view a ≤ greatest) (hmake : make (view a) = a)
    (hleast : -0x8000000000000000 ≤ least) (hgreatest : greatest < UInt64.size) :
    (Form.integer least greatest make view).ReadsBack a := by
  intro layout depth s rest hrest hs
  have hread := reads_int (hleast.trans hlow) (hhigh.trans_lt hgreatest) s rest hrest hs
  simp only [Form.integer, hread, bind, Except.bind, if_pos (And.intro hlow hhigh), hmake]

theorem readsBack_u8 (x : UInt8) : u8.ReadsBack x := by
  have hx : x.toNat < 256 := x.toNat_lt
  refine .integer (Int.natCast_nonneg _) (by omega) ?_ (by decide) (by decide)
  rw [Int.toNat_natCast, UInt8.ofNat_toNat]

theorem readsBack_u32 (x : UInt32) : u32.ReadsBack x := by
  have hx : x.toNat < 4294967296 := x.toNat_lt
  refine .integer (Int.natCast_nonneg _) (by omega) ?_ (by decide) (by decide)
  rw [Int.toNat_natCast, UInt32.ofNat_toNat]

theorem readsBack_u64 (x : UInt64) : u64.ReadsBack x := by
  have hx : x.toNat < 18446744073709551616 := x.toNat_lt
  refine .integer (Int.natCast_nonneg _) (by omega) ?_ (by decide) (by decide)
  rw [Int.toNat_natCast, UInt64.ofNat_toNat]

theorem readsBack_i64 (x : Int64) : i64.ReadsBack x :=
  .integer x.le_toInt (Int.le_of_lt_add_one x.toInt_lt) (Int64.ofInt_toInt x) (by decide)
    (by decide)

theorem readsBack_string (t : String) : string.ReadsBack t := fun _ _ => reads_text t

theorem ReadsBack.parsed {view : α → String} {parse : String → Option α} {a : α}
    (h : parse (view a) = some a) : (Form.parsed view parse).ReadsBack a := by
  intro layout depth s rest hrest hs
  simp only [Form.parsed, reads_text (view a) s rest hrest hs, bind, Except.bind, h]

theorem readsBack_octets {n : Nat} (v : ByteVec n) : (octets n).ReadsBack v := by
  intro layout depth s rest hrest hs
  obtain ⟨bs, rfl⟩ := v
  cases bs with
  | nil =>
    have htext : skipBlanks s = '[' :: ']' :: rest := hs
    simp only [octets, htext]
    rfl
  | cons b bs =>
    have hends := ends_lineBreak (c := ']') (by decide) layout depth rest
    have hitem := (readsBack_u8 b layout (depth + 1)).apply
      (ends_renderItems layout (depth + 1) (bs.map u8.write) hends)
    simp only [octets, List.map_cons, render, List.cons_append, List.append_assoc,
      List.nil_append] at hs
    simp only [octets, hs, List.length_cons, itemsExactly, nextItem_first, bind, Except.bind,
      hitem, itemsExactly_renderItems (fun b (_ : b ∈ bs) => readsBack_u8 b) hends, pure,
      Except.pure, ByteVec.ofBytes?, dif_pos, closeList_lineBreak]

theorem readsBack_hex {n : Nat} (v : ByteVec n) : (hex n).ReadsBack v :=
  .parsed (by rw [ByteVec.ofHex_toHex]; rfl)

theorem readsBack_hash (h : Hash256) : hash.ReadsBack h := (readsBack_hex h.bytes).via rfl

theorem readsBack_account (a : AccountId) : account.ReadsBack a := by
  refine .via ?_ ?_
  · exact readsBack_hex a.key.bytes
  · rfl

theorem readsBack_signature (s : Signature) : signature.ReadsBack s :=
  (readsBack_hex s.bytes).via rfl

theorem readsBack_hint (h : Hint) : hint.ReadsBack h := (readsBack_octets h.bytes).via rfl

end Form

end Json

end NextLedger
