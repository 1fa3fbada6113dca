import Mathlib.Data.List.Nodup
import OpManifest.Proofs.Failure
import OpManifest.Proofs.Record

/-!
# What a record accepts

The data that a record which refuses other fields is read from.

* A mapping gives the record its members exactly if their names differ, each is the
  name of a field, and every check passes (`RecordForm.members_mapping_eq_ok`).
* A sequence gives it the fields in their order, and may end only where every later
  field allows it (`RecordForm.members_sequence_eq_ok`).

Members whose names differ are those of some slots in any order if each slot finds what
it holds (`perm_present_iff`).
-/

namespace OpManifest.Data

/-! ## Slots -/

section Slots

variable {α : Type} {slots : List (String × Option α)} {members : List (String × α)}

/-- The members that the slots with a value make. -/
def present (slots : List (String × Option α)) : List (String × α) :=
  slots.filterMap fun slot => slot.2.map (slot.1, ·)

theorem mem_present {name : String} {a : α} :
    (name, a) ∈ present slots ↔ (name, some a) ∈ slots := by
  simp only [present, List.mem_filterMap, Option.map_eq_some_iff, Prod.mk.injEq, Prod.exists]
  constructor
  · rintro ⟨_, _, hslot, _, rfl, rfl, rfl⟩
    exact hslot
  · intro hslot
    exact ⟨name, some a, hslot, a, rfl, rfl, rfl⟩

theorem map_fst_present : ((present slots).map Prod.fst).Sublist (slots.map Prod.fst) := by
  induction slots with
  | nil => exact .refl []
  | cons slot slots ih =>
    obtain ⟨name, value⟩ := slot
    cases value with
    | none => exact ih.cons name
    | some a => exact ih.cons_cons name

/-- Members with different names are found by them. -/
theorem lookup_eq_some_iff_mem (hnodup : (members.map Prod.fst).Nodup) {name : String} {a : α} :
    members.lookup name = some a ↔ (name, a) ∈ members :=
  ⟨mem_of_lookup, lookup_of_mem hnodup⟩

/-- Members are those of the slots in any order if their names differ, none is unknown,
and each slot finds its value or that it has none. -/
theorem perm_present_iff (hslots : (slots.map Prod.fst).Nodup) :
    members.Perm (present slots) ↔ (members.map Prod.fst).Nodup ∧
      members.map Prod.fst ⊆ slots.map Prod.fst ∧
      ∀ slot ∈ slots, members.lookup slot.1 = slot.2 := by
  have hpresent : ((present slots).map Prod.fst).Nodup := hslots.sublist map_fst_present
  constructor
  · intro h
    have hnodup : (members.map Prod.fst).Nodup := (h.map Prod.fst).nodup_iff.2 hpresent
    refine ⟨hnodup, fun name hname => ?_, fun (name, value) hslot => ?_⟩
    · exact map_fst_present.subset ((h.map Prod.fst).subset hname)
    · ext a
      rw [lookup_eq_some_iff_mem hnodup, h.mem_iff, mem_present]
      refine ⟨fun hmem => ?_, fun heq => heq ▸ hslot⟩
      exact Option.some.inj ((lookup_of_mem hslots hslot).symm.trans (lookup_of_mem hslots hmem))
  · rintro ⟨hnodup, hknown, hvalues⟩
    rw [List.perm_ext_iff_of_nodup (.of_map Prod.fst hnodup) (.of_map Prod.fst hpresent)]
    rintro ⟨name, a⟩
    rw [mem_present]
    constructor
    · intro hmember
      obtain ⟨slot, hslot, rfl⟩ := List.mem_map.1 (hknown (List.mem_map_of_mem hmember))
      rw [← lookup_of_mem hnodup hmember, hvalues slot hslot]
      exact hslot
    · intro hslot
      exact (lookup_eq_some_iff_mem hnodup).1 (hvalues _ hslot)

end Slots

/-! ## Mappings -/

namespace RecordForm

variable {form : RecordForm} {members : List (String × Datum)}

/-- The record visits all members if each is accepted by its field, and no two have one
name. -/
theorem visit_eq_ok (hstrict : form.strict = true) {seen : List String}
    {given : List (String × Datum)} :
    form.visit seen given = .ok members ↔ members = given ∧ (given.map Prod.fst).Nodup ∧
      (∀ member ∈ given, member.1 ∉ seen) ∧
      ∀ member ∈ given, ∃ field, form.fields.find? (·.name = member.1) = some field ∧
        field.check member.2 = .ok () := by
  constructor
  · intro h
    induction given generalizing seen members with
    | nil =>
      obtain rfl := Except.ok.inj h
      simp
    | cons first others ih =>
      obtain ⟨name, d⟩ := first
      unfold visit at h
      split at h
      · rename_i field hfield
        simp only at h
        split at h
        · cases h
        · rename_i hfresh
          obtain ⟨⟨⟩, hcheck, h⟩ := bind_eq_ok.1 h
          obtain ⟨rest, hrest, h⟩ := bind_eq_ok.1 h
          obtain rfl := Except.ok.inj h
          obtain ⟨rfl, hnodup, hunseen, haccepted⟩ := ih hrest
          simp only [List.mem_cons, not_or] at hunseen
          refine ⟨rfl, ?_, ?_, ?_⟩
          · rw [List.map_cons, List.nodup_cons]
            refine ⟨fun hmem => ?_, hnodup⟩
            obtain ⟨other, hother, hsame⟩ := List.mem_map.1 hmem
            exact (hunseen other hother).1 hsame
          · exact List.forall_mem_cons.2
              ⟨by simpa using hfresh, fun other hother => (hunseen other hother).2⟩
          · exact List.forall_mem_cons.2 ⟨⟨field, hfield, hcheck⟩, haccepted⟩
      · rw [hstrict] at h
        cases h
  · rintro ⟨rfl, hnodup, hseen, haccepted⟩
    exact visit_of_accepted hnodup hseen haccepted

/-- A record that refuses other fields takes a mapping whose names differ and are those
of fields, if every check passes. -/
theorem members_mapping_eq_ok (hstrict : form.strict = true)
    (hnames : (form.fields.map FieldCheck.name).Nodup) {origin : Origin}
    {given : List (String × Datum)} :
    form.members origin (.mapping given false) = .ok members ↔
      members = given ∧ (given.map Prod.fst).Nodup ∧
      given.map Prod.fst ⊆ form.fields.map FieldCheck.name ∧
      ∀ check ∈ form.fields, check.Passes given := by
  constructor
  · intro h
    rw [RecordForm.members] at h
    obtain ⟨visited, hvisited, hchecked⟩ := bind_eq_ok.1 h
    obtain ⟨rfl, hnodup, -, haccepted⟩ := (visit_eq_ok hstrict).1 hvisited
    simp only [Bool.false_eq_true, if_false] at hchecked
    split at hchecked
    · cases hchecked
    · rename_i hpresent
      obtain rfl := Except.ok.inj hchecked
      refine ⟨rfl, hnodup, List.forall_mem_map.2 fun member hmember => ?_, fun check hcheck => ?_⟩
      · obtain ⟨field, hfield, -⟩ := haccepted member hmember
        have hname : field.name = member.1 := by simpa using List.find?_some hfield
        exact hname ▸ List.mem_map_of_mem (List.mem_of_find?_eq_some hfield)
      · unfold FieldCheck.Passes
        split
        · rename_i d hlookup
          obtain ⟨field, hfield, haccept⟩ :=
            haccepted _ ((lookup_eq_some_iff_mem hnodup).1 hlookup)
          rw [find?_of_mem hnames hcheck] at hfield
          rwa [Option.some.inj hfield]
        · rename_i hlookup
          simpa [hlookup] using List.find?_eq_none.1 hpresent check hcheck
  · rintro ⟨rfl, hnodup, hknown, hpasses⟩
    exact members_of_passes hnames hnodup hknown hpasses

/-! ## Sequences -/

/-- The items are visited if each is accepted by the field in its place, and the fields
that are left allow the end. -/
theorem visitSequence_eq_ok {length : Nat} {fields : List FieldCheck} {items : List Datum} :
    form.visitSequence length fields items = .ok members ↔
      members = (fields.map FieldCheck.name).zip items ∧
      (∀ pair ∈ fields.zip items, pair.1.check pair.2 = .ok ()) ∧
      ∀ field ∈ fields.drop items.length, field.mayEndBefore = true := by
  induction fields generalizing items members with
  | nil =>
    refine ⟨fun h => ⟨(Except.ok.inj h).symm, by simp, by simp⟩, ?_⟩
    rintro ⟨rfl, -⟩
    rfl
  | cons field fields ih =>
    cases items with
    | nil =>
      rw [visitSequence]
      split
      · rename_i hend
        rw [ih]
        simp [hend]
      · rename_i hend
        simp [hend]
    | cons d items =>
      simp only [visitSequence, bind_eq_ok, ih, List.map_cons, List.zip_cons_cons,
        List.forall_mem_cons, List.length_cons, List.drop_succ_cons]
      constructor
      · rintro ⟨⟨⟩, hcheck, rest, ⟨rfl, hchecks, hends⟩, h⟩
        exact ⟨(Except.ok.inj h).symm, ⟨hcheck, hchecks⟩, hends⟩
      · rintro ⟨rfl, ⟨hcheck, hchecks⟩, hends⟩
        exact ⟨(), hcheck, _, ⟨rfl, hchecks, hends⟩, rfl⟩

/-- In memory a record takes a sequence of its fields, in their order, that may end
before fields that allow it. -/
theorem members_sequence_eq_ok {items : List Datum} :
    form.members .memory (.sequence items) = .ok members ↔
      items.length ≤ form.fields.length ∧
      members = (form.fields.map FieldCheck.name).zip items ∧
      (∀ pair ∈ form.fields.zip items, pair.1.check pair.2 = .ok ()) ∧
      ∀ field ∈ form.fields.drop items.length, field.mayEndBefore = true := by
  rw [RecordForm.members, bind_eq_ok]
  simp only [visitSequence_eq_ok]
  constructor
  · rintro ⟨visited, ⟨rfl, hrest⟩, h⟩
    split at h
    · cases h
    · rename_i hlength
      obtain rfl := Except.ok.inj h
      exact ⟨Nat.le_of_not_lt hlength, rfl, hrest⟩
  · rintro ⟨hlength, rfl, hrest⟩
    refine ⟨_, ⟨rfl, hrest⟩, ?_⟩
    rw [if_neg (Nat.not_lt_of_le hlength)]
    rfl

end RecordForm

/-! ## Values -/

variable {slots : List (String × Option Datum)} {checks : List FieldCheck}

/-- The data spells out the values of the fields: a mapping of those that have one, in
any order, or the sequence of them, that may end before fields without one. -/
inductive Spelled (slots : List (String × Option Datum)) : Datum → Prop where
  | mapping {given : List (String × Datum)} (h : given.Perm (present slots)) :
    Spelled slots (.mapping given false)
  | sequence {items : List Datum} {rest : Nat}
    (h : slots.map Prod.snd = items.map some ++ List.replicate rest none) :
    Spelled slots (.sequence items)

/-- The check accepts the value of its field, or that there is none. -/
def FieldCheck.Accepts (check : FieldCheck) (slot : String × Option Datum) : Prop :=
  check.name = slot.1 ∧
    match slot.2 with
    | some d => check.check d = .ok ()
    | none => check.mayLack = true ∧ check.mayEndBefore = true

/-- Items stand for the first values if each is found under the name in its place. -/
theorem forall_lookup_zip (hnodup : (slots.map Prod.fst).Nodup) {items : List Datum}
    (hlength : items.length ≤ slots.length) :
    (∀ slot ∈ slots, ((slots.map Prod.fst).zip items).lookup slot.1 = slot.2) ↔
      ∃ rest, slots.map Prod.snd = items.map some ++ List.replicate rest none := by
  induction items generalizing slots with
  | nil =>
    simp only [List.zip_nil_right, List.lookup_nil, List.map_nil, List.nil_append,
      List.eq_replicate_iff, List.forall_mem_map]
    exact ⟨fun h => ⟨_, rfl, fun slot hslot => (h slot hslot).symm⟩,
      fun ⟨_, _, h⟩ slot hslot => (h slot hslot).symm⟩
  | cons d items ih =>
    cases slots with
    | nil => cases hlength
    | cons slot slots =>
      obtain ⟨name, value⟩ := slot
      rw [List.map_cons, List.nodup_cons] at hnodup
      have hlater : (∀ slot ∈ slots, ((name, d) :: (slots.map Prod.fst).zip items).lookup slot.1 =
          slot.2) ↔ ∀ slot ∈ slots, ((slots.map Prod.fst).zip items).lookup slot.1 = slot.2 := by
        refine forall₂_congr fun slot hslot => ?_
        have hne : (slot.1 == name) = false :=
          beq_false_of_ne fun heq => hnodup.1 (List.mem_map.2 ⟨slot, hslot, heq⟩)
        rw [List.lookup_cons, hne]
      rw [List.map_cons, List.zip_cons_cons, List.forall_mem_cons, hlater,
        ih hnodup.2 (Nat.le_of_succ_le_succ hlength), List.lookup_cons_self]
      simp only [List.map_cons, List.cons_append, List.cons.injEq, exists_and_left, eq_comm]

theorem names_of_accepts (haccepts : List.Forall₂ FieldCheck.Accepts checks slots) :
    checks.map FieldCheck.name = slots.map Prod.fst := by
  induction haccepts with
  | nil => rfl
  | cons haccept _ ih => rw [List.map_cons, List.map_cons, haccept.1, ih]

theorem passes_of_accepts (haccepts : List.Forall₂ FieldCheck.Accepts checks slots)
    {members : List (String × Datum)} (hvalues : ∀ slot ∈ slots, members.lookup slot.1 = slot.2) :
    ∀ check ∈ checks, check.Passes members := by
  induction haccepts with
  | nil => exact nofun
  | @cons check slot _ _ haccept _ ih =>
    obtain ⟨hvalue, hothers⟩ := List.forall_mem_cons.1 hvalues
    refine List.forall_mem_cons.2 ⟨?_, ih hothers⟩
    obtain ⟨name, value⟩ := slot
    obtain ⟨hname, haccept⟩ := haccept
    rw [FieldCheck.Passes, hname, hvalue]
    cases value with
    | some d => exact haccept
    | none => exact haccept.1

/-- Items that stand for the first values pass the checks of their fields, and the
fields that are left allow the end. -/
theorem accepts_items (haccepts : List.Forall₂ FieldCheck.Accepts checks slots)
    {items : List Datum} {rest : Nat}
    (h : slots.map Prod.snd = items.map some ++ List.replicate rest none) :
    (∀ pair ∈ checks.zip items, pair.1.check pair.2 = .ok ()) ∧
      ∀ check ∈ checks.drop items.length, check.mayEndBefore = true := by
  induction haccepts generalizing items rest with
  | nil => simp
  | @cons check slot checks slots haccept haccepts ih =>
    obtain ⟨name, value⟩ := slot
    cases items with
    | nil =>
      cases rest with
      | zero => cases h
      | succ rest =>
        obtain ⟨hvalue, hlater⟩ := List.cons.inj h
        obtain rfl : value = none := hvalue
        exact ⟨by simp, List.forall_mem_cons.2 ⟨haccept.2.2, (@ih [] rest hlater).2⟩⟩
    | cons d items =>
      obtain ⟨hvalue, hlater⟩ := List.cons.inj h
      obtain rfl : value = some d := hvalue
      obtain ⟨hchecks, hends⟩ := ih hlater
      exact ⟨List.forall_mem_cons.2 ⟨haccept.2, hchecks⟩, hends⟩

/-- A record that refuses other fields, and accepts the values, is read with them from
what spells them out and from nothing else. -/
theorem RecordForm.members_eq_ok {form : RecordForm} (hstrict : form.strict = true)
    (hslots : (slots.map Prod.fst).Nodup)
    (haccepts : List.Forall₂ FieldCheck.Accepts form.fields slots) {d : Datum} :
    (∃ members, form.members .memory d = .ok members ∧
      ∀ slot ∈ slots, members.lookup slot.1 = slot.2) ↔ Spelled slots d := by
  have hnames := names_of_accepts haccepts
  have hlength : form.fields.length = slots.length := haccepts.length_eq
  constructor
  · rintro ⟨members, hmembers, hvalues⟩
    cases d with
    | mapping given cut =>
      cases cut with
      | false =>
        obtain ⟨rfl, hnodup, hknown, -⟩ :=
          (members_mapping_eq_ok hstrict (hnames ▸ hslots)).1 hmembers
        exact .mapping ((perm_present_iff hslots).2 ⟨hnodup, hnames ▸ hknown, hvalues⟩)
      | true =>
        obtain ⟨_, -, hcut⟩ := bind_eq_ok.1 hmembers
        cases hcut
    | sequence items =>
      obtain ⟨hitems, rfl, -⟩ := members_sequence_eq_ok.1 hmembers
      rw [hnames] at hvalues
      rw [hlength] at hitems
      obtain ⟨rest, h⟩ := (forall_lookup_zip hslots hitems).1 hvalues
      exact .sequence h
    | _ => cases hmembers
  · intro h
    cases h with
    | mapping h =>
      rename_i given
      obtain ⟨hnodup, hknown, hvalues⟩ := (perm_present_iff hslots).1 h
      exact ⟨given, (members_mapping_eq_ok hstrict (hnames ▸ hslots)).2
        ⟨rfl, hnodup, hnames ▸ hknown, passes_of_accepts haccepts hvalues⟩, hvalues⟩
    | sequence h =>
      rename_i items rest
      have htotal : slots.length = items.length + rest := by
        simpa using congrArg List.length h
      have hitems : items.length ≤ slots.length := htotal ▸ Nat.le_add_right _ _
      exact ⟨_, members_sequence_eq_ok.2 ⟨hlength ▸ hitems, rfl, accepts_items haccepts h⟩,
        hnames ▸ (forall_lookup_zip hslots hitems).2 ⟨rest, h⟩⟩

end OpManifest.Data
