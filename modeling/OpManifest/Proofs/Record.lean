import OpManifest.Data.Record

/-!
# Reading what a record was written as

A record is written as a mapping from names of its fields, in their order, that
may leave out fields with a default.  It is read back member by member: if every
field finds its value, then all members are accepted (`members_of_passes`).
-/

namespace OpManifest.Data

variable {α : Type}

/-! ## Fields -/

namespace RecordField

/-- A field that is there is read. -/
theorem get_of_lookup {field : RecordField α} {members : List (String × Datum)} {d : Datum}
    (h : members.lookup field.name = some d) : field.get members = field.read d := by
  rw [get, h]

/-- A field that is not there has its default. -/
theorem get_of_absent {field : RecordField α} {members : List (String × Datum)} {value : α}
    (h : members.lookup field.name = none) (habsent : field.absent = some value) :
    field.get members = .ok value := by
  rw [get, h, habsent]

end RecordField

/-- The check accepts what the members hold for its field. -/
def FieldCheck.Passes (check : FieldCheck) (members : List (String × Datum)) : Prop :=
  match members.lookup check.name with
  | some d => check.check d = .ok ()
  | none => check.mayLack = true

theorem RecordField.passes_of_get {field : RecordField α} {members : List (String × Datum)}
    {value : α} (h : field.get members = .ok value) : field.toCheck.Passes members := by
  unfold FieldCheck.Passes
  unfold get at h
  simp only [toCheck]
  split at h
  · rename_i d _ hlookup
    simp only [hlookup, h]
    rfl
  · rename_i hlookup habsent
    simp [hlookup, habsent]
  · cases h

/-! ## Names that differ -/

theorem lookup_of_mem {members : List (String × α)} (hnodup : (members.map Prod.fst).Nodup)
    {name : String} {a : α} (h : (name, a) ∈ members) : members.lookup name = some a := by
  induction members with
  | nil => cases h
  | cons first others ih =>
    obtain ⟨other, value⟩ := first
    rw [List.map_cons, List.nodup_cons] at hnodup
    obtain heq | hmem := List.mem_cons.1 h
    · obtain ⟨rfl, rfl⟩ := Prod.mk.inj heq
      exact List.lookup_cons_self
    · have hne : (name == other) = false := by
        rw [beq_eq_false_iff_ne]
        intro heq
        exact hnodup.1 (List.mem_map.2 ⟨(name, a), hmem, heq⟩)
      rw [List.lookup_cons, hne]
      exact ih hnodup.2 hmem

theorem mem_of_lookup {members : List (String × α)} {name : String} {a : α}
    (h : members.lookup name = some a) : (name, a) ∈ members := by
  obtain ⟨front, back, rfl, -⟩ := List.lookup_eq_some_iff.1 h
  exact List.mem_append_right front List.mem_cons_self

theorem find?_of_mem {fields : List FieldCheck} (hnodup : (fields.map FieldCheck.name).Nodup)
    {check : FieldCheck} (h : check ∈ fields) :
    fields.find? (·.name = check.name) = some check := by
  induction fields with
  | nil => cases h
  | cons first others ih =>
    rw [List.map_cons, List.nodup_cons] at hnodup
    obtain rfl | hmem := List.mem_cons.1 h
    · simp
    · have hne : first.name ≠ check.name := by
        intro heq
        exact hnodup.1 (heq ▸ List.mem_map_of_mem hmem)
      simpa [hne] using ih hnodup.2 hmem

/-! ## Records -/

namespace RecordForm

variable {form : RecordForm}

/-- Members of which each is accepted by its field, and no two have one name, are
all visited. -/
theorem visit_of_accepted {seen : List String} {members : List (String × Datum)}
    (hnodup : (members.map Prod.fst).Nodup) (hseen : ∀ member ∈ members, member.1 ∉ seen)
    (haccepted : ∀ member ∈ members, ∃ field, form.fields.find? (·.name = member.1) = some field ∧
      field.check member.2 = .ok ()) :
    form.visit seen members = .ok members := by
  induction members generalizing seen with
  | nil => rfl
  | cons member members ih =>
    obtain ⟨name, d⟩ := member
    obtain ⟨field, hfield, hcheck⟩ := haccepted (name, d) (by simp)
    rw [List.map_cons, List.nodup_cons] at hnodup
    have hfresh : seen.contains name = false := by simpa using hseen (name, d) (by simp)
    have hrest : form.visit (name :: seen) members = .ok members := by
      apply ih hnodup.2
      · intro other hother hmem
        obtain heq | hmem := List.mem_cons.1 hmem
        · exact hnodup.1 (List.mem_map.2 ⟨other, hother, heq⟩)
        · exact hseen other (by simp [hother]) hmem
      · exact fun other hother => haccepted other (by simp [hother])
    simp only [visit, hfield, hfresh, hcheck, hrest]
    rfl

/-- Members with different names of fields that pass all checks are the members of
the record. -/
theorem members_of_passes {origin : Origin} {members : List (String × Datum)}
    (hnames : (form.fields.map FieldCheck.name).Nodup)
    (hnodup : (members.map Prod.fst).Nodup)
    (hknown : members.map Prod.fst ⊆ form.fields.map FieldCheck.name)
    (hpasses : ∀ check ∈ form.fields, check.Passes members) :
    form.members origin (.mapping members false) = .ok members := by
  have hvisit : form.visit [] members = .ok members := by
    apply visit_of_accepted hnodup (by simp)
    intro member hmember
    obtain ⟨check, hcheck, hsame⟩ := List.mem_map.1 (hknown (List.mem_map_of_mem hmember))
    have hpass := hpasses check hcheck
    rw [FieldCheck.Passes, hsame, lookup_of_mem hnodup hmember] at hpass
    exact ⟨check, hsame ▸ find?_of_mem hnames hcheck, hpass⟩
  have hnone : form.fields.find? (fun field =>
      !field.mayLack && (members.lookup field.name).isNone) = none := by
    rw [List.find?_eq_none]
    intro check hcheck
    have hpass := hpasses check hcheck
    unfold FieldCheck.Passes at hpass
    split at hpass <;> simp_all
  rw [RecordForm.members, hvisit]
  simp only [bind, Except.bind, Bool.false_eq_true, ↓reduceIte, hnone]
  rfl

end RecordForm

end OpManifest.Data
