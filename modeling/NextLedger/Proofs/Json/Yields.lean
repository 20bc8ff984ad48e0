import NextLedger.Bundle
import NextLedger.Proofs.Accounts
import NextLedger.Proofs.Wire.Exact

/-!
# What readers guarantee

A reader **yields** a property if all that it reads has it, whatever the text. For the values that a
form makes from others the property only has to hold of what is made. For a record it is carried by
an invariant of the state that collects the members: the state before any member has it, every field
keeps it, in whatever order the members come, and it passes on to the record.

Ledger states are the example: they are made from a list of accounts, so those that are read hold
each account under its own identifier, and so do the ledgers of bundles (`Bundle.keyed_of_ofText`).
-/

namespace NextLedger

namespace Json

variable {α β P Q : Type}

/-- Whether all that a reader reads has a property. -/
def Yields (r : Reader α) (A : α → Prop) : Prop := ∀ s a rest, r s = .ok (a, rest) → A a

theorem Yields.map {r : Reader α} {g : α → β} {B : β → Prop} (h : Yields r fun a => B (g a)) :
    Yields (Reader.map g r) B := by
  intro s b rest hread
  rw [Reader.map] at hread
  split at hread
  · cases hread
  · rename_i a rest' ha
    obtain ⟨rfl, rfl⟩ := Prod.mk.inj (Except.ok.inj hread)
    exact h s a rest' ha

/-- What is made has a property that everything made has. -/
theorem Yields.via (f : Form α) {make : α → β} (view : β → α) {B : β → Prop}
    (h : ∀ a, B (make a)) : Yields (f.via make view).read B :=
  Yields.map fun _ a _ _ => h a

/-- A value of the wrong shape is never read. -/
theorem yields_mismatch (A : α → Prop) : Yields mismatch A := by
  intro s a rest hread
  have hnever : ∀ {γ : Type} (x : Except Problem γ),
      (x >>= fun _ => Except.error .mismatched) ≠ Except.ok (a, rest) := by
    intro γ x h
    obtain ⟨-, -, h⟩ := bind_eq_ok_iff.1 h
    cases h
  rw [mismatch] at hread
  split at hread
  · cases hread
  · exact absurd hread (hnever _)
  · exact absurd hread (hnever _)
  · exact absurd hread (hnever _)
  · exact absurd hread (hnever _)
  · cases hread
  · cases hread
  · split at hread
    · exact absurd hread (hnever _)
    · cases hread

section Records

variable {fields : List (Field P)} {I : P → Prop}
  (hfields : ∀ field ∈ fields, ∀ p, I p → Yields (field.read p) I)
include hfields

/-- Reading one member after the other keeps what every field keeps. -/
theorem yields_members (fuel : Nat) (first : Bool) {p : P} (hp : I p) :
    Yields (members fields fuel first p) I := by
  intro s q rest hread
  induction fuel generalizing first p s with
  | zero => cases hread
  | succ fuel ih =>
    obtain ⟨step, -, hread⟩ := bind_eq_ok_iff.1 hread
    cases step with
    | done s =>
      cases hread
      exact hp
    | more s =>
      obtain ⟨⟨name, s⟩, -, hread⟩ := bind_eq_ok_iff.1 hread
      dsimp only at hread
      split at hread
      · rename_i field hfind
        split at hread
        · cases hread
        · obtain ⟨s, -, hread⟩ := bind_eq_ok_iff.1 hread
          obtain ⟨⟨p', s'⟩, hfield, hread⟩ := bind_eq_ok_iff.1 hread
          exact ih false (hfields field (List.mem_of_find?_eq_some hfind) p hp s p' s' hfield) s'
            hread
      · obtain ⟨s, -, hread⟩ := bind_eq_ok_iff.1 hread
        obtain ⟨s, -, hread⟩ := bind_eq_ok_iff.1 hread
        exact ih false hp s hread

/-- Reading members by place keeps what every field keeps. -/
theorem yields_positional (first : Bool) {p : P} (hp : I p) :
    Yields (positional fields first p) I := by
  intro s q rest hread
  induction fields generalizing first p s with
  | nil =>
    obtain ⟨s, -, hread⟩ := bind_eq_ok_iff.1 hread
    cases hread
    exact hp
  | cons field fields ih =>
    obtain ⟨step, -, hread⟩ := bind_eq_ok_iff.1 hread
    obtain ⟨hfield, hrest⟩ := List.forall_mem_cons.1 hfields
    cases step with
    | done s =>
      cases hread
      exact hp
    | more s =>
      obtain ⟨⟨p', s'⟩, hvalue, hread⟩ := bind_eq_ok_iff.1 hread
      exact ih hrest false (hfield p hp s p' s' hvalue) s' hread

end Records

/-- Whether the records that are made of members have a property, by an invariant of the state in
which the members are collected. -/
def Fields.Yields (F : Fields P α) (A : α → Prop) : Prop :=
  ∃ I : P → Prop, I F.start ∧ (∀ field ∈ F.fields, ∀ p, I p → Json.Yields (field.read p) I) ∧
    ∀ p a, I p → F.finish p = some a → A a

namespace Fields

theorem yields_trivial (F : Fields P α) : F.Yields fun _ => True :=
  ⟨fun _ => True, trivial, fun _ _ _ _ _ _ _ _ => trivial, fun _ _ _ _ => trivial⟩

/-- What is read as a member that must come has the property, and no record is without it. -/
theorem Yields.required {f : Form α} {A : α → Prop} (name : String) (h : Json.Yields f.read A) :
    (Fields.required name f).Yields A := by
  refine ⟨fun o => ∀ a ∈ o, A a, nofun, fun field hfield p _ => ?_, fun p a hp ha => ?_⟩
  · rw [List.mem_singleton.1 hfield]
    refine Yields.map fun s a rest hread b hb => ?_
    obtain rfl : a = b := Option.some.inj hb
    exact h s a rest hread
  · refine hp a ?_
    simpa [Fields.required, one] using ha

theorem Yields.and {F : Fields P α} {G : Fields Q β} {A : α → Prop} {B : β → Prop}
    (hF : F.Yields A) (hG : G.Yields B) : (F.and G).Yields fun ab => A ab.1 ∧ B ab.2 := by
  obtain ⟨I, hI, hIfields, hIfinish⟩ := hF
  obtain ⟨J, hJ, hJfields, hJfinish⟩ := hG
  refine ⟨fun p => I p.1 ∧ J p.2, ⟨hI, hJ⟩, fun field hfield p hp => ?_, fun p ab hp hab => ?_⟩
  · rcases List.mem_append.1 hfield with hfield | hfield
    · obtain ⟨own, hown, rfl⟩ := List.mem_map.1 hfield
      exact Yields.map fun s q rest hread => ⟨hIfields own hown p.1 hp.1 s q rest hread, hp.2⟩
    · obtain ⟨own, hown, rfl⟩ := List.mem_map.1 hfield
      exact Yields.map fun s q rest hread => ⟨hp.1, hJfields own hown p.2 hp.2 s q rest hread⟩
  · obtain ⟨a, ha, hab⟩ := Option.bind_eq_some_iff.1 hab
    obtain ⟨b, hb, hab⟩ := Option.bind_eq_some_iff.1 hab
    cases hab
    exact ⟨hIfinish _ _ hp.1 ha, hJfinish _ _ hp.2 hb⟩

end Fields

/-- **Records.** What is read as a record has the property that its members give it. -/
theorem Yields.record {F : Fields P α} {A : α → Prop} (h : F.Yields A) :
    Yields (Form.record F).read A := by
  obtain ⟨I, hstart, hfields, hfinish⟩ := h
  intro s a rest hread
  -- Whichever way the members were read, the state in which they are collected has the invariant.
  have hdone : ∀ {r : Reader P} {s : List Char} {next : P × List Char → Except Problem _},
      Yields r I →
      (∀ q, next q = (F.finish q.1).elim (.error .mismatched) fun a => .ok (a, q.2)) →
      r s >>= next = .ok (a, rest) → A a := by
    intro r s next hr hnext hread
    obtain ⟨⟨p, s'⟩, hstate, hread⟩ := bind_eq_ok_iff.1 hread
    rw [hnext] at hread
    cases hfinished : F.finish p with
    | none =>
      rw [hfinished] at hread
      cases hread
    | some b =>
      rw [hfinished] at hread
      obtain ⟨rfl, rfl⟩ := Prod.mk.inj (Except.ok.inj hread)
      exact hfinish p b (hr s p s' hstate) hfinished
  simp only [Form.record] at hread
  split at hread
  · refine hdone (yields_positional hfields true hstart) (fun q => ?_) hread
    cases F.finish q.1 <;> rfl
  · refine hdone (yields_members hfields _ true hstart) (fun q => ?_) hread
    cases F.finish q.1 <;> rfl
  · refine hdone (yields_mismatch I) (fun q => ?_) hread
    cases F.finish q.1 <;> rfl

/-! ### Ledgers and bundles -/

/-- Ledger states that are read hold each account under its own identifier. -/
theorem yields_ledgerState : Yields Form.ledgerState.read LedgerState.Keyed :=
  .via _ _ fun p => LedgerState.keyed_ofEntries p.1 p.2

theorem yields_bundle : Yields Form.bundle.read fun b => b.ledger.Keyed := by
  refine Yields.map fun s p rest hread => ?_
  exact (Yields.record (.and (.required _ yields_ledgerState) (Fields.yields_trivial _)) s p rest
    hread).1

theorem readAll_yields {r : Reader α} {A : α → Prop} (h : Yields r A) {t : String} {a : α}
    (hread : readAll r t = .ok a) : A a := by
  obtain ⟨⟨b, rest⟩, hb, hread⟩ := bind_eq_ok_iff.1 hread
  dsimp only at hread
  split at hread
  · cases hread
    exact h _ _ _ hb
  · cases hread

end Json

/-- A bundle that is read has a keyed ledger. -/
theorem Bundle.keyed_of_ofText {t : String} {b : Bundle} (h : ofText t = .ok b) :
    b.ledger.Keyed :=
  Json.readAll_yields Json.yields_bundle h

end NextLedger
