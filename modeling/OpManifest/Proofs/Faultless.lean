import OpManifest.Operation.Descriptor
import OpManifest.Proofs.Failure
import OpManifest.Proofs.Record

/-!
# Data without faults

A reader refuses data because its text is at fault or because it has another
shape.  Data that never had a text, such as the values of arguments, is refused
for its shape only: this holds of a reader that is put together of such readers
(`Readable`), and of a record that refuses fields it does not know
(`RecordForm.readable_bind`).
-/

namespace OpManifest

namespace Data

/-- Data whose text is free of faults, for it never had one. -/
inductive Datum.Faultless : Datum → Prop where
  | boolean (value : Bool) : Faultless (.boolean value)
  | text (value : String) : Faultless (.text value)
  | sequence (items : List Datum) (hitems : ∀ item ∈ items, item.Faultless) :
    Faultless (.sequence items)
  | mapping (members : List (String × Datum)) (hmembers : ∀ member ∈ members, member.2.Faultless) :
    Faultless (.mapping members false)

/-- The reader takes no data for faulty that is not. -/
def Readable {α : Type} (reader : Reader α) : Prop :=
  ∀ d : Datum, d.Faultless → reader d ≠ .error .unreadable

variable {α β : Type}

theorem readable_text : Readable Reader.text := by
  intro d hd
  cases hd <;> simp [Reader.text, Reader.textCalled, Reader.unexpected]

theorem Readable.map {reader : Reader α} (h : Readable reader) (f : α → β) :
    Readable fun d => f <$> reader d := by
  intro d hd hfault
  exact h d hd (map_eq_error.1 hfault)

theorem Readable.list {item : Reader α} (h : Readable item) : Readable (Reader.list item) := by
  intro d hd hfault
  cases hd with
  | sequence items hitems =>
    obtain ⟨front, faulty, rest, rfl, -, hread⟩ := exists_of_mapM_error hfault
    exact h faulty (hitems faulty (by simp)) hread
  | boolean | text | mapping => cases hfault

/-- Nothing in such data is null. -/
theorem Reader.optional_eq {value : Reader α} {d : Datum} (hd : d.Faultless) :
    Reader.optional value d = some <$> value d := by
  cases hd <;> rfl

theorem Readable.optional {value : Reader α} (h : Readable value) :
    Readable (Reader.optional value) := by
  intro d hd
  rw [Reader.optional_eq hd]
  exact h.map some d hd

/-! ## Records in the data of values -/

/-- The check takes no data for faulty that is not. -/
def FieldCheck.Readable (field : FieldCheck) : Prop :=
  ∀ d : Datum, d.Faultless → field.check d ≠ .error .unreadable

theorem RecordField.readable_toCheck {field : RecordField α} (h : Data.Readable field.read) :
    field.toCheck.Readable :=
  h.map fun _ => ()

/-- A field among members without faults is not faulty. -/
theorem RecordField.get_ne_unreadable {field : RecordField α} (h : Data.Readable field.read)
    {members : List (String × Datum)} (hmembers : ∀ member ∈ members, member.2.Faultless) :
    field.get members ≠ .error .unreadable := by
  unfold get
  split
  · rename_i _ _ d hlookup
    exact h d (hmembers (field.name, d) (mem_of_lookup hlookup))
  · simp
  · simp

/-- What is made of a field is readable if what follows it is. -/
theorem RecordField.get_bind_ne_unreadable {field : RecordField α} (h : Data.Readable field.read)
    {members : List (String × Datum)} (hmembers : ∀ member ∈ members, member.2.Faultless)
    {next : α → Except Fault β} (hnext : ∀ a, next a ≠ .error .unreadable) :
    field.get members >>= next ≠ .error .unreadable := by
  intro hfault
  rcases bind_eq_error.1 hfault with hget | ⟨a, -, hfault⟩
  · exact get_ne_unreadable h hmembers hget
  · exact hnext a hfault

namespace RecordForm

variable {form : RecordForm}

/-- The members that are visited are some of those that are given. -/
theorem mem_of_visit {seen : List String} {given members : List (String × Datum)}
    (h : form.visit seen given = .ok members) : ∀ member ∈ members, member ∈ given := by
  induction given generalizing seen members with
  | nil =>
    cases h
    simp
  | cons first others ih =>
    obtain ⟨name, d⟩ := first
    unfold visit at h
    split at h
    · simp only at h
      split at h
      · cases h
      · obtain ⟨-, -, h⟩ := bind_eq_ok.1 h
        obtain ⟨rest, hrest, h⟩ := bind_eq_ok.1 h
        obtain rfl := Except.ok.inj h
        intro member hmember
        rcases List.mem_cons.1 hmember with rfl | hmember
        · exact List.mem_cons_self
        · exact List.mem_cons_of_mem _ (ih hrest member hmember)
    · simp only at h
      split at h
      · cases h
      · split at h
        · cases h
        · intro member hmember
          exact List.mem_cons_of_mem _ (ih h member hmember)

theorem visit_ne_unreadable (hstrict : form.strict = true)
    (hfields : ∀ field ∈ form.fields, field.Readable) {seen : List String}
    {given : List (String × Datum)} (hgiven : ∀ member ∈ given, member.2.Faultless) :
    form.visit seen given ≠ .error .unreadable := by
  induction given generalizing seen with
  | nil => simp [visit]
  | cons first others ih =>
    obtain ⟨name, d⟩ := first
    obtain ⟨hfirst, hothers⟩ := List.forall_mem_cons.1 hgiven
    intro hfault
    unfold visit at hfault
    split at hfault
    · rename_i field hfield
      simp only at hfault
      split at hfault
      · cases hfault
      · rcases bind_eq_error.1 hfault with hcheck | ⟨-, -, hrest⟩
        · exact hfields field (List.mem_of_find?_eq_some hfield) d hfirst hcheck
        · rcases bind_eq_error.1 hrest with hrest | ⟨_, -, hpure⟩
          · exact ih hothers hrest
          · cases hpure
    · rw [hstrict] at hfault
      cases hfault

/-- The items that stand for fields are found among those that are given. -/
theorem mem_of_visitSequence {length : Nat} {fields : List FieldCheck} {items : List Datum}
    {members : List (String × Datum)} (h : form.visitSequence length fields items = .ok members) :
    ∀ member ∈ members, member.2 ∈ items := by
  induction fields generalizing items members with
  | nil =>
    cases h
    simp
  | cons field fields ih =>
    cases items with
    | nil =>
      unfold visitSequence at h
      split at h
      · exact ih h
      · cases h
    | cons d items =>
      unfold visitSequence at h
      obtain ⟨-, -, h⟩ := bind_eq_ok.1 h
      obtain ⟨rest, hrest, h⟩ := bind_eq_ok.1 h
      obtain rfl := Except.ok.inj h
      intro member hmember
      rcases List.mem_cons.1 hmember with rfl | hmember
      · exact List.mem_cons_self
      · exact List.mem_cons_of_mem _ (ih hrest member hmember)

theorem visitSequence_ne_unreadable {length : Nat} {fields : List FieldCheck} {items : List Datum}
    (hfields : ∀ field ∈ fields, field.Readable) (hitems : ∀ item ∈ items, item.Faultless) :
    form.visitSequence length fields items ≠ .error .unreadable := by
  induction fields generalizing items with
  | nil => simp [visitSequence]
  | cons field fields ih =>
    obtain ⟨hfield, hlater⟩ := List.forall_mem_cons.1 hfields
    intro hfault
    cases items with
    | nil =>
      unfold visitSequence at hfault
      split at hfault
      · exact ih hlater (by simp) hfault
      · cases hfault
    | cons d items =>
      obtain ⟨hd, hitems⟩ := List.forall_mem_cons.1 hitems
      unfold visitSequence at hfault
      rcases bind_eq_error.1 hfault with hcheck | ⟨-, -, hrest⟩
      · exact hfield d hd hcheck
      · rcases bind_eq_error.1 hrest with hrest | ⟨_, -, hpure⟩
        · exact ih hlater hitems hrest
        · cases hpure

/-- The members of a record are without faults if its data is. -/
theorem faultless_of_members {d : Datum} (hd : d.Faultless) {members : List (String × Datum)}
    (h : form.members .memory d = .ok members) : ∀ member ∈ members, member.2.Faultless := by
  cases hd with
  | mapping given hgiven =>
    unfold RecordForm.members at h
    obtain ⟨visited, hvisited, h⟩ := bind_eq_ok.1 h
    simp only [Bool.false_eq_true, if_false] at h
    split at h
    · cases h
    · obtain rfl := Except.ok.inj h
      exact fun member hmember => hgiven member (mem_of_visit hvisited member hmember)
  | sequence items hitems =>
    unfold RecordForm.members at h
    obtain ⟨visited, hvisited, h⟩ := bind_eq_ok.1 h
    simp only at h
    split at h
    · cases h
    · obtain rfl := Except.ok.inj h
      exact fun member hmember => hitems member.2 (mem_of_visitSequence hvisited member hmember)
  | boolean | text => cases h

/-- A record that refuses other fields does not take data for faulty that is not. -/
theorem readable_members (hstrict : form.strict = true)
    (hfields : ∀ field ∈ form.fields, field.Readable) : Readable (form.members .memory) := by
  intro d hd hfault
  cases hd with
  | mapping given hgiven =>
    unfold RecordForm.members at hfault
    rcases bind_eq_error.1 hfault with hvisit | ⟨visited, -, hfault⟩
    · exact visit_ne_unreadable hstrict hfields hgiven hvisit
    · simp only [Bool.false_eq_true, if_false] at hfault
      split at hfault <;> cases hfault
  | sequence items hitems =>
    unfold RecordForm.members at hfault
    rcases bind_eq_error.1 hfault with hvisit | ⟨visited, -, hfault⟩
    · exact visitSequence_ne_unreadable hfields hitems hvisit
    · simp only at hfault
      split at hfault <;> cases hfault
  | boolean | text => cases hfault

/-- A record is readable if what is made of its members is. -/
theorem readable_bind {next : List (String × Datum) → Except Fault α} (hstrict : form.strict = true)
    (hfields : ∀ field ∈ form.fields, field.Readable)
    (hnext : ∀ members : List (String × Datum), (∀ member ∈ members, member.2.Faultless) →
      next members ≠ .error .unreadable) : Readable fun d => form.members .memory d >>= next := by
  intro d hd hfault
  rcases bind_eq_error.1 hfault with hmembers | ⟨members, hmembers, hfault⟩
  · exact readable_members hstrict hfields d hd hmembers
  · exact hnext members (faultless_of_members hd hmembers) hfault

end RecordForm

end Data

/-! ## The records of a tool -/

open Data

theorem ExtraInput.readable_read : Readable (ExtraInput.read .memory) := by
  refine RecordForm.readable_bind rfl ?_ fun members hmembers => ?_
  · simp only [form, List.forall_mem_cons]
    exact ⟨RecordField.readable_toCheck readable_text, RecordField.readable_toCheck readable_text,
      RecordField.readable_toCheck readable_text, by simp⟩
  · refine RecordField.get_bind_ne_unreadable readable_text hmembers fun name => ?_
    refine RecordField.get_bind_ne_unreadable readable_text hmembers fun type => ?_
    exact RecordField.get_bind_ne_unreadable readable_text hmembers fun description => nofun

theorem InvocationLabels.readable_read : Readable (InvocationLabels.read .memory) := by
  have hlabel := readable_text.optional
  refine RecordForm.readable_bind rfl ?_ fun members hmembers => ?_
  · simp only [form, List.forall_mem_cons]
    exact ⟨RecordField.readable_toCheck hlabel, RecordField.readable_toCheck hlabel, by simp⟩
  · refine RecordField.get_bind_ne_unreadable hlabel hmembers fun invoking => ?_
    exact RecordField.get_bind_ne_unreadable hlabel hmembers fun invoked => nofun

theorem ToolLabels.readable_read : Readable (ToolLabels.read .memory) := by
  have hlabels := InvocationLabels.readable_read.optional
  refine RecordForm.readable_bind rfl ?_ fun members hmembers => ?_
  · simp only [form, List.forall_mem_cons]
    exact ⟨RecordField.readable_toCheck hlabels, by simp⟩
  · exact RecordField.get_bind_ne_unreadable hlabels hmembers fun invocation => nofun

end OpManifest
