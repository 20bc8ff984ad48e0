import NextLedger.Config.Toml
import NextLedger.Proofs.Text.Hex
import NextLedger.Proofs.Toml.Lines

/-!
# Configurations in TOML

A configuration is read back from the document that it is written to. Each value denotes itself
where it stands: the names, the level and the identifiers as quoted texts, the share as a number,
and the accounts as an array on one line or on several. So each line of the document states an
assignment, the lines together state those of the configuration (`states_toToml`), and the table
that these build has the members that reading looks for.
-/

namespace NextLedger

theorem AccountId.ofHex_toHex (a : AccountId) : AccountId.ofHex a.toHex = .ok a := by
  rw [ofHex, toHex, ByteVec.ofHex_toHex]
  rfl

namespace Config

open Toml

/-! ### Arrays -/

theorem skipSpace_quote (t : String) (s : List Char) :
    skipSpace false (quote t ++ s) = quote t ++ s := by
  obtain ⟨q, w, hquote, hq⟩ := exists_quote_eq_cons t
  rw [hquote, List.cons_append]
  obtain rfl | rfl := hq <;> rfl

theorem length_le_length_itemLines (items : List String) :
    items.length ≤ (items.flatMap itemLine).length := by
  induction items with
  | nil => exact le_rfl
  | cons t items ih =>
    rw [List.flatMap_cons, List.length_append, List.length_cons, itemLine, List.length_cons]
    omega

/-- Items on lines of their own are read one after the other. -/
theorem arrayItems_itemLines (depth fuel : Nat) (items : List String) (rest : List Char)
    (h : items.length < fuel) :
    arrayItems (value depth) fuel ('\n' :: (items.flatMap itemLine ++ ']' :: rest)) =
      some (items.map .text, rest) := by
  induction items generalizing fuel with
  | nil =>
    obtain ⟨fuel, rfl⟩ : ∃ k, fuel = k + 1 := Nat.exists_eq_add_one.2 h
    rfl
  | cons t items ih =>
    obtain ⟨fuel, rfl⟩ : ∃ k, fuel = k + 1 := Nat.exists_eq_add_one.2 (by omega)
    obtain ⟨q, s, hquote, hq⟩ := exists_quote_eq_cons t
    have hlines : (t :: items).flatMap itemLine ++ ']' :: rest = ' ' :: ' ' :: ' ' :: ' ' ::
        (quote t ++ ',' :: '\n' :: (items.flatMap itemLine ++ ']' :: rest)) := by
      simp [itemLine]
    have hitem := value_quote depth t (',' :: '\n' :: (items.flatMap itemLine ++ ']' :: rest))
      (by simp)
    have hskip : skipSpace false ('\n' :: ((t :: items).flatMap itemLine ++ ']' :: rest)) =
        quote t ++ ',' :: '\n' :: (items.flatMap itemLine ++ ']' :: rest) := by
      rw [hlines]
      exact skipSpace_quote t _
    rw [hquote, List.cons_append] at hskip hitem
    rw [arrayItems_of_comma hskip (by rintro rfl; simp at hq) hitem,
      ih fuel (Nat.lt_of_succ_lt_succ h)]
    rfl

/-- **Arrays of texts**, however many lines they take. -/
theorem denotes_textArray (items : List String) :
    Denotes (textArray items) (.array (items.map .text)) := by
  refine ⟨fun rest => ?_, ?_⟩
  · rw [show nestingLimit - 1 = 78 + 1 from rfl]
    rcases items with _ | ⟨t, _ | ⟨u, items⟩⟩
    · rfl
    · obtain ⟨q, s, hquote, hq⟩ := exists_quote_eq_cons t
      have hitem := value_quote 78 t (']' :: '\n' :: rest) (by simp)
      have hskip := skipSpace_quote t (']' :: '\n' :: rest)
      rw [hquote, List.cons_append] at hitem hskip
      have hitems := fun fuel =>
        arrayItems_of_bracket hskip (by rintro rfl; simp at hq) hitem fuel
      simp only [textArray, hquote, List.cons_append, List.append_assoc, List.nil_append, value,
        hitems]
      rfl
    · have hlength := length_le_length_itemLines (t :: u :: items)
      have hitems := arrayItems_itemLines 78
        (('\n' :: ((t :: u :: items).flatMap itemLine ++ ']' :: '\n' :: rest)).length + 1)
        (t :: u :: items) ('\n' :: rest) (by
          simp only [List.length_cons, List.length_append] at hlength ⊢
          omega)
      simp only [textArray, List.cons_append, List.append_assoc, List.nil_append, value, hitems]
      rfl
  · rcases items with _ | ⟨t, _ | ⟨u, items⟩⟩ <;> simp [textArray, isBlank]

/-! ### The document -/

/-- The members of the whitelist's table. -/
def whitelistMembers (w : WhitelistSettings) : Members :=
  (w.holder.map fun a => ("holder", Value.text a.toHex)).toList ++
    [("accounts", .array (w.accounts.map fun a => .text a.toHex)),
      ("reserve_percent", .integer w.reservePercent.toNat)]

/-- The members of a configuration's table. -/
def members (c : Config) : Members :=
  [("network", .text c.network.name), ("log_format", .text c.logFormat.name),
    ("log_level", .text c.logLevel), ("whitelist", .table .header (whitelistMembers c.whitelist))]

/-- The assignments of some members. -/
def assignments (ms : Members) : List Statement := ms.map fun m => .assign ⟨[], m.1⟩ m.2

/-- What a configuration's document states. -/
def statements (c : Config) : List Statement :=
  assignments [("network", .text c.network.name), ("log_format", .text c.logFormat.name),
    ("log_level", .text c.logLevel)] ++
  .header ⟨[], "whitelist"⟩ :: assignments (whitelistMembers c.whitelist)

/-- The names in the document. -/
def names : List String := ["network", "log_format", "log_level", "whitelist", "holder", "accounts",
  "reserve_percent"]

/-- The names in the document need no quotes. -/
theorem isBareName_of_mem_names {name : String} (h : name ∈ names) : IsBareName name := by
  simp only [names, List.mem_cons, List.not_mem_nil, or_false] at h
  obtain rfl | rfl | rfl | rfl | rfl | rfl | rfl := h <;> simp [IsBareName, isBare]

theorem states_line {text : List Char} {v : Value} (hvalue : Denotes text v) (name : String)
    (h : name ∈ names) : States (line name text) (assignments [(name, v)]) :=
  states_assign (isBareName_of_mem_names h) hvalue

theorem states_whitelistLines (w : WhitelistSettings) :
    States (whitelistLines w)
      (.header ⟨[], "whitelist"⟩ :: assignments (whitelistMembers w)) := by
  have hheader : States (headerLine "whitelist") [.header ⟨[], "whitelist"⟩] :=
    states_header (isBareName_of_mem_names (by simp [names]))
  have haccounts := states_line (denotes_textArray (w.accounts.map AccountId.toHex)) "accounts"
    (by simp [names])
  have hshare := states_line (denotes_toDigits (n := w.reservePercent.toNat) (by
    have hlt := w.reservePercent.toNat_lt
    omega)) "reserve_percent" (by simp [names])
  rw [List.map_map] at haccounts
  have hrest := haccounts.append hshare
  obtain ⟨holder, accounts, share⟩ := w
  cases holder with
  | none => exact hheader.append hrest
  | some a =>
    have hholder := states_line (denotes_quote a.toHex) "holder" (by simp [names])
    have hall := hheader.append (hholder.append hrest)
    rw [whitelistLines, Option.toList_some, List.flatMap_singleton]
    exact hall

/-- The document of a configuration states its members. -/
theorem states_toToml (c : Config) : States c.toToml.toList c.statements := by
  have hnetwork := states_line (denotes_quote c.network.name) "network" (by simp [names])
  have hformat := states_line (denotes_quote c.logFormat.name) "log_format" (by simp [names])
  have hlevel := states_line (denotes_quote c.logLevel) "log_level" (by simp [names])
  have hwhitelist := states_blank.append (states_whitelistLines c.whitelist)
  rw [toToml, String.toList_ofList]
  exact hnetwork.append (hformat.append (hlevel.append hwhitelist))

/-! ### The table -/

/-- The statements of a document build the table of the configuration. -/
theorem ofStatements_statements (c : Config) : ofStatements c.statements = some c.members := by
  rw [statements, members]
  rcases c.whitelist with ⟨_ | a, accounts, share⟩ <;> rfl

theorem ofText_toToml (c : Config) : Toml.ofText c.toToml = some c.members := by
  have hmark : skipByteOrderMark c.toToml.toList = c.toToml.toList := by
    rw [toToml, String.toList_ofList]
    rfl
  simp only [Toml.ofText, hmark, (states_toToml c).lines_eq, Option.bind_eq_bind, Option.bind_some,
    ofStatements_statements]

theorem readAccount_toHex (a : AccountId) : readAccount (.text a.toHex) = some a := by
  rw [readAccount, AccountId.ofHex_toHex]
  rfl

theorem readAccounts_toHex (accounts : List AccountId) :
    readAccounts (.array (accounts.map fun a => .text a.toHex)) = some accounts := by
  rw [readAccounts]
  induction accounts with
  | nil => rfl
  | cons a accounts ih =>
    rw [List.map_cons, List.mapM_cons, readAccount_toHex, ih]
    rfl

theorem readShare_toNat (share : UInt32) : readShare (.integer share.toNat) = some share := by
  have hfits : 0 ≤ (share.toNat : Int) ∧ (share.toNat : Int).toNat < UInt32.size :=
    ⟨Int.natCast_nonneg _, share.toNat_lt⟩
  rw [readShare, if_pos hfits, Int.toNat_natCast, UInt32.ofNat_toNat]

/-- The whitelist of its table. -/
theorem readTable_whitelistMembers (w : WhitelistSettings) :
    readTable (whitelistMembers w) = some w := by
  have hholder : (whitelistMembers w).lookup "holder" = w.holder.map fun a => .text a.toHex := by
    rcases w with ⟨_ | a, accounts, share⟩ <;> rfl
  have haccounts : (whitelistMembers w).lookup "accounts" =
      some (.array (w.accounts.map fun a => .text a.toHex)) := by
    rcases w with ⟨_ | a, accounts, share⟩ <;> rfl
  have hshare : (whitelistMembers w).lookup "reserve_percent" =
      some (.integer w.reservePercent.toNat) := by
    rcases w with ⟨_ | a, accounts, share⟩ <;> rfl
  simp only [readTable, hholder, haccounts, hshare, readMembers, orDefault, readAccounts_toHex,
    readShare_toNat]
  obtain ⟨holder, accounts, share⟩ := w
  cases holder with
  | none => rfl
  | some a => simp [readAccount_toHex]

/-- The configuration of its table. -/
theorem ofMembers_members (c : Config) : ofMembers c.members = some c := by
  have hnetwork : c.members.lookup "network" = some (.text c.network.name) := rfl
  have hwhitelist : c.members.lookup "whitelist" =
      some (.table .header (whitelistMembers c.whitelist)) := rfl
  have hformat : c.members.lookup "log_format" = some (.text c.logFormat.name) := rfl
  have hlevel : c.members.lookup "log_level" = some (.text c.logLevel) := rfl
  simp [ofMembers, hnetwork, hwhitelist, hformat, hlevel, orDefault, readNamed, readWhitelist,
    readTable_whitelistMembers, readText]

/-- **Configurations survive their TOML.** Whatever the network, the log format and the level, with
a holder or without one, with any accounts and any share, the document of a configuration is read as
the configuration, and the whitelist that it then describes gives the same answers. -/
theorem ofToml_toToml (c : Config) :
    ∃ d, ofToml c.toToml = some d ∧ d = c ∧
      (∀ a, d.whitelist.toWhitelist.isPrivileged a = c.whitelist.toWhitelist.isPrivileged a) ∧
      (∀ max, d.whitelist.toWhitelist.reserve max = c.whitelist.toWhitelist.reserve max) ∧
      d.whitelist.toWhitelist.holder = c.whitelist.toWhitelist.holder := by
  have hread : ofToml c.toToml = some c := by
    rw [ofToml, ofText_toToml]
    exact ofMembers_members c
  exact ⟨c, hread, rfl, fun _ => rfl, fun _ => rfl, rfl⟩

end Config

end NextLedger
