import Mathlib.Data.Set.List
import OpManifest.Proofs.Decoding
import OpManifest.Proofs.Description
import OpManifest.Proofs.RecordShape

/-!
# The records of a tool

Which literals the directive `@tool` takes for the extra inputs and the labels of a tool,
and what it reads from them (`compileTool_shape`).  Both are made of records of texts.  A
record is written as an object of the texts, in any order and without those that it does
not have, or as the list of the texts in the order of the fields (`TextRecord`).
-/

namespace OpManifest

open Data
open GraphQL (Directive Value)

/-! ## Literals as data -/

namespace GraphQL.Value

mutual

/-- The literal as data.  A literal of a kind that is refused has no value. -/
def datum : Value → Datum
  | .string text => .text text
  | .boolean value => .boolean value
  | .list items => .sequence (itemData items)
  | .object fields => .mapping (fieldData fields) false
  | .int _ | .float _ | .symbol _ | .null | .reference _ => .unusable

/-- The items of a list as data. -/
def itemData : List Value → List Datum
  | [] => []
  | item :: items => item.datum :: itemData items

/-- The fields of an object as data. -/
def fieldData : List (String × Value) → List (String × Datum)
  | [] => []
  | (name, field) :: fields => (name, field.datum) :: fieldData fields

end

theorem itemData_eq (items : List Value) : itemData items = items.map datum := by
  induction items with
  | nil => rfl
  | cons item items ih => rw [itemData, ih, List.map_cons]

theorem fieldData_eq (fields : List (String × Value)) :
    fieldData fields = fields.map fun field => (field.1, field.2.datum) := by
  induction fields with
  | nil => rfl
  | cons field fields ih => rw [fieldData, ih, List.map_cons]

theorem map_fst_fieldData (fields : List (String × Value)) :
    (fieldData fields).map Prod.fst = fields.map Prod.fst := by
  rw [fieldData_eq, List.map_map]
  rfl

theorem lookup_fieldData (fields : List (String × Value)) (name : String) :
    (fieldData fields).lookup name = (fields.lookup name).map datum := by
  induction fields with
  | nil => rfl
  | cons field fields ih =>
    rw [fieldData, List.lookup_cons, List.lookup_cons, ih]
    cases name == field.1 <;> rfl

/-- Only a string is a text. -/
theorem datum_eq_text {literal : Value} {text : String} :
    literal.datum = .text text ↔ literal = .string text := by
  cases literal <;> simp [datum]

end GraphQL.Value

/-- What a reader is handed of a literal. -/
theorem toDatum_of_decode {literal : Value} {value : PlainValue}
    (h : PlainValue.decode literal = .ok value) : value.toJson.toDatum = literal.datum := by
  induction literal using Value.byMembers generalizing value with
  | list items ih =>
    obtain ⟨values, hvalues, rfl⟩ := PlainValue.decode_list_eq_ok.1 h
    rw [PlainValue.toJson, Json.toDatum, PlainValue.itemsToData_eq, Value.datum, Value.itemData_eq,
      map_eq_map_of_forall₂ hvalues fun item hitem value => ih item hitem]
  | object fields ih =>
    obtain ⟨pairs, hpairs, rfl⟩ := PlainValue.decode_object_eq_ok.1 h
    have hpair : ∀ field ∈ fields, ∀ pair, PlainValue.decodeNamed field = .ok pair →
        (pair.1, pair.2.toJson.toDatum) = (field.1, field.2.datum) := by
      intro field hfield pair hpair
      obtain ⟨hname, hvalue⟩ := PlainValue.decodeNamed_eq_ok.1 hpair
      rw [hname, ih field hfield hvalue]
    rw [PlainValue.toJson, Json.toDatum, PlainValue.membersToData_eq, Value.datum,
      Value.fieldData_eq, map_eq_map_of_forall₂ hpairs hpair]
  | string | boolean =>
    obtain rfl := Except.ok.inj h
    rw [PlainValue.toJson, Json.toDatum, Value.datum]
  | reference | int | float | null | symbol => cases h

/-- A literal without refused ones is data without faults. -/
theorem Accepted.faultless {literal : Value} (h : Accepted literal) : literal.datum.Faultless := by
  obtain ⟨value, hvalue⟩ := PlainValue.exists_decode_eq_ok.2 (firstRefused?_eq_none.2 h)
  exact toDatum_of_decode hvalue ▸ value.faultless_toDatum

theorem accepted_list {items : List Value} :
    Accepted (.list items) ↔ ∀ item ∈ items, Accepted item := by
  simp only [← firstRefused?_eq_none, PlainValue.firstRefused?_list, List.findSome?_eq_none_iff]

theorem accepted_object {fields : List (String × Value)} :
    Accepted (.object fields) ↔ ∀ field ∈ fields, Accepted field.2 := by
  simp only [← firstRefused?_eq_none, PlainValue.firstRefused?_object, List.findSome?_eq_none_iff]

theorem accepted_string (text : String) : Accepted (.string text) :=
  firstRefused?_eq_none.1 rfl

/-! ## Records of texts -/

section Texts

variable {α : Type} {slots : List (String × Option String)}

/-- The texts of the fields, each written in the given way. -/
def textSlots (write : String → α) (slots : List (String × Option String)) :
    List (String × Option α) :=
  slots.map fun slot => (slot.1, slot.2.map write)

theorem map_fst_textSlots (write : String → α) :
    (textSlots write slots).map Prod.fst = slots.map Prod.fst := by
  rw [textSlots, List.map_map]
  rfl

theorem map_snd_textSlots (write : String → α) :
    (textSlots write slots).map Prod.snd = (slots.map Prod.snd).map (Option.map write) := by
  rw [textSlots, List.map_map, List.map_map]
  rfl

/-- The literal writes the record whose fields have the texts: as an object of those that
have one, in any order, or as the list of the texts, that may end before fields without
one. -/
inductive TextRecord (slots : List (String × Option String)) : Value → Prop where
  | object {fields : List (String × Value)}
    (h : fields.Perm (present (textSlots Value.string slots))) : TextRecord slots (.object fields)
  | list {texts : List String} {rest : Nat}
    (h : slots.map Prod.snd = texts.map some ++ List.replicate rest none) :
    TextRecord slots (.list (texts.map .string))

theorem TextRecord.accepted {literal : Value} (h : TextRecord slots literal) :
    Accepted literal := by
  cases h with
  | object h =>
    rw [accepted_object]
    rintro ⟨name, literal⟩ hfield
    obtain ⟨slot, -, hslot⟩ := List.mem_map.1 (mem_present.1 (h.mem_iff.1 hfield))
    obtain ⟨text, -, rfl⟩ := Option.map_eq_some_iff.1 (Prod.mk.inj hslot).2
    exact accepted_string text
  | list h =>
    rw [accepted_list, List.forall_mem_map]
    exact fun text _ => accepted_string text

theorem map_datum_eq {found : Option Value} {text : Option String} :
    found.map Value.datum = text.map Datum.text ↔ found = text.map Value.string := by
  cases found <;> cases text <;> simp [Value.datum_eq_text]

/-- An object has the texts under their names exactly if its data has. -/
theorem perm_fieldData {fields : List (String × Value)} (hslots : (slots.map Prod.fst).Nodup) :
    (Value.fieldData fields).Perm (present (textSlots Datum.text slots)) ↔
      fields.Perm (present (textSlots Value.string slots)) := by
  rw [perm_present_iff (by rwa [map_fst_textSlots]), perm_present_iff (by rwa [map_fst_textSlots]),
    map_fst_textSlots, map_fst_textSlots, Value.map_fst_fieldData]
  simp only [textSlots, List.forall_mem_map, Value.lookup_fieldData, map_datum_eq]

/-- A list holds the texts exactly if its data does. -/
theorem map_snd_textSlots_eq {items : List Value} {rest : Nat} :
    (textSlots Datum.text slots).map Prod.snd =
        (items.map Value.datum).map some ++ List.replicate rest none ↔
      ∃ texts : List String, items = texts.map Value.string ∧
        slots.map Prod.snd = texts.map some ++ List.replicate rest none := by
  have htext : Function.Injective (Option.map Datum.text) :=
    Option.map_injective fun _ _ => Datum.text.inj
  have hdata (texts : List String) :
      ((texts.map Value.string).map Value.datum).map some ++ List.replicate rest none =
        (texts.map some ++ List.replicate rest none).map (Option.map Datum.text) := by
    simp [Value.datum]
  rw [map_snd_textSlots]
  constructor
  · intro h
    have hstrings : items ∈ Set.range (List.map Value.string) := by
      rw [Set.range_list_map]
      intro item hitem
      have hmem : some item.datum ∈ (slots.map Prod.snd).map (Option.map Datum.text) := by
        rw [h]
        exact List.mem_append_left _ (List.mem_map_of_mem (List.mem_map_of_mem hitem))
      obtain ⟨value, -, hvalue⟩ := List.mem_map.1 hmem
      obtain ⟨text, -, htext⟩ := Option.map_eq_some_iff.1 hvalue
      exact ⟨text, (Value.datum_eq_text.1 htext.symm).symm⟩
    obtain ⟨texts, rfl⟩ := hstrings
    rw [hdata, (List.map_injective_iff.2 htext).eq_iff] at h
    exact ⟨texts, rfl, h⟩
  · rintro ⟨texts, rfl, h⟩
    rw [h, hdata]

/-- A literal writes a record of texts exactly if it is data that spells the texts out. -/
theorem textRecord_iff (hslots : (slots.map Prod.fst).Nodup) {literal : Value} :
    TextRecord slots literal ↔ Spelled (textSlots Datum.text slots) literal.datum := by
  cases literal with
  | object fields =>
    rw [Value.datum]
    constructor
    · rintro ⟨h⟩
      exact .mapping ((perm_fieldData hslots).2 h)
    · rintro ⟨h⟩
      exact .object ((perm_fieldData hslots).1 h)
  | list items =>
    rw [Value.datum, Value.itemData_eq]
    constructor
    · intro h
      cases h with
      | list h => exact .sequence (map_snd_textSlots_eq.2 ⟨_, rfl, h⟩)
    · intro h
      cases h with
      | sequence h =>
        obtain ⟨texts, rfl, htexts⟩ := map_snd_textSlots_eq.1 h
        exact .list htexts
  | string | boolean | reference | int | float | null | symbol =>
    exact ⟨nofun, nofun⟩

end Texts

/-! ## Extra inputs -/

theorem text_eq_ok {d : Datum} {text : String} : Reader.text d = .ok text ↔ d = .text text := by
  cases d <;> simp [Reader.text, Reader.textCalled, Reader.unexpected]

/-- A field that has to be a text is read if the members hold one under its name. -/
theorem get_required_text {members : List (String × Datum)} {name text : String} :
    (RecordField.required name Reader.text).get members = .ok text ↔
      members.lookup name = some (.text text) := by
  unfold RecordField.get RecordField.required
  cases members.lookup name <;> simp [text_eq_ok]

namespace ExtraInput

/-- The texts of an input under the names of its fields. -/
def texts (input : ExtraInput) : List (String × Option String) :=
  [("name", some input.name), ("type", some input.type), ("description", some input.description)]

theorem read_eq_ok {d : Datum} {input : ExtraInput} :
    read .memory d = .ok input ↔ Spelled (textSlots Datum.text input.texts) d := by
  have haccepts : List.Forall₂ FieldCheck.Accepts form.fields (textSlots Datum.text input.texts) :=
    .cons ⟨rfl, rfl⟩ (.cons ⟨rfl, rfl⟩ (.cons ⟨rfl, rfl⟩ .nil))
  rw [← RecordForm.members_eq_ok rfl (by simp [textSlots, texts]) haccepts, read, bind_eq_ok]
  refine exists_congr fun members => and_congr_right fun _ => ?_
  simp only [bind_eq_ok, nameField, typeField, descriptionField, get_required_text, textSlots,
    texts, List.map_cons, List.map_nil, Option.map_some, List.forall_mem_cons]
  constructor
  · rintro ⟨name, hname, type, htype, description, hdescription, h⟩
    obtain rfl := Except.ok.inj h
    exact ⟨hname, htype, hdescription, nofun⟩
  · rintro ⟨hname, htype, hdescription, -⟩
    exact ⟨_, hname, _, htype, _, hdescription, rfl⟩

/-- An input is read from what writes the record of its texts. -/
theorem read_datum_eq_ok {literal : Value} {input : ExtraInput} :
    read .memory literal.datum = .ok input ↔ TextRecord input.texts literal := by
  rw [read_eq_ok, textRecord_iff (by simp [texts])]

end ExtraInput

/-! ## Labels -/

/-- A field that may be a text is read if the members hold one under its name or do not
have the name. -/
theorem get_optional_text {members : List (String × Datum)}
    (hmembers : ∀ member ∈ members, member.2.Faultless) {name : String} {text : Option String} :
    (RecordField.withDefault name (Reader.optional Reader.text) none).get members = .ok text ↔
      members.lookup name = text.map .text := by
  unfold RecordField.get RecordField.withDefault
  cases hlookup : members.lookup name with
  | none => simp [eq_comm]
  | some d =>
    have hd : d.Faultless := hmembers (name, d) (mem_of_lookup hlookup)
    simp only [Reader.optional_eq hd, map_eq_ok, text_eq_ok]
    cases text <;> simp

theorem accepts_optional_text (name : String) (text : Option String) :
    (RecordField.withDefault name (Reader.optional Reader.text) none).toCheck.Accepts
      (name, text.map Datum.text) := by
  cases text with
  | none => exact ⟨rfl, rfl, rfl⟩
  | some text => exact ⟨rfl, rfl⟩

namespace InvocationLabels

/-- The texts of the labels under the names of their fields. -/
def texts (labels : InvocationLabels) : List (String × Option String) :=
  [("invoking", labels.invoking), ("invoked", labels.invoked)]

theorem read_eq_ok {d : Datum} (hd : d.Faultless) {labels : InvocationLabels} :
    read .memory d = .ok labels ↔ Spelled (textSlots Datum.text labels.texts) d := by
  have haccepts : List.Forall₂ FieldCheck.Accepts form.fields
      (textSlots Datum.text labels.texts) :=
    .cons (accepts_optional_text "invoking" labels.invoking)
      (.cons (accepts_optional_text "invoked" labels.invoked) .nil)
  rw [← RecordForm.members_eq_ok rfl (by simp [textSlots, texts]) haccepts, read, bind_eq_ok]
  refine exists_congr fun members => and_congr_right fun hmembers => ?_
  have hfaultless := RecordForm.faultless_of_members hd hmembers
  simp only [bind_eq_ok, invokingField, invokedField, get_optional_text hfaultless, textSlots,
    texts, List.map_cons, List.map_nil, List.forall_mem_cons]
  constructor
  · rintro ⟨invoking, hinvoking, invoked, hinvoked, h⟩
    obtain rfl := Except.ok.inj h
    exact ⟨hinvoking, hinvoked, nofun⟩
  · rintro ⟨hinvoking, hinvoked, -⟩
    exact ⟨_, hinvoking, _, hinvoked, rfl⟩

theorem read_datum_eq_ok {literal : Value} (h : Accepted literal) {labels : InvocationLabels} :
    read .memory literal.datum = .ok labels ↔ TextRecord labels.texts literal := by
  rw [read_eq_ok h.faultless, textRecord_iff (by simp [texts])]

end InvocationLabels

/-- The literal writes the labels of a tool: an object with nothing in it but the labels of
its invocation. -/
inductive LabelsRecord : Value → ToolLabels → Prop where
  | empty : LabelsRecord (.object []) ⟨none⟩
  | invocation {literal : Value} {labels : InvocationLabels} (h : TextRecord labels.texts literal) :
    LabelsRecord (.object [("toolInvocation", literal)]) ⟨some labels⟩

theorem LabelsRecord.exists_eq_object {literal : Value} {labels : ToolLabels}
    (h : LabelsRecord literal labels) : ∃ fields, literal = .object fields := by
  cases h with
  | empty => exact ⟨_, rfl⟩
  | invocation => exact ⟨_, rfl⟩

theorem LabelsRecord.accepted {literal : Value} {labels : ToolLabels}
    (h : LabelsRecord literal labels) : Accepted literal := by
  cases h with
  | empty => exact accepted_object.2 nofun
  | invocation h => exact accepted_object.2 (List.forall_mem_singleton.2 h.accepted)

namespace ToolLabels

/-- Where only one name is known, there is at most one field. -/
theorem eq_nil_or_eq_singleton {fields : List (String × Value)} {name : String}
    (hnodup : (fields.map Prod.fst).Nodup) (hknown : fields.map Prod.fst ⊆ [name]) :
    fields = [] ∨ ∃ literal, fields = [(name, literal)] := by
  obtain ⟨n, hnames⟩ := List.subset_singleton_iff.1 hknown
  rw [hnames, List.nodup_replicate] at hnodup
  rcases Nat.le_one_iff_eq_zero_or_eq_one.1 hnodup with rfl | rfl
  · exact .inl (List.map_eq_nil_iff.1 hnames)
  · obtain ⟨⟨first, literal⟩, rfl, rfl⟩ := List.map_eq_singleton_iff.1 hnames
    exact .inr ⟨literal, rfl⟩

theorem get_singleton {literal : Value} (h : Accepted literal) :
    (toolInvocationField .memory).get [("toolInvocation", literal.datum)] =
      some <$> InvocationLabels.read .memory literal.datum :=
  (RecordField.get_of_lookup List.lookup_cons_self).trans (Reader.optional_eq h.faultless)

theorem read_eq_ok {d : Datum} {labels : ToolLabels} :
    read .memory d = .ok labels ↔ ∃ members, (form .memory).members .memory d = .ok members ∧
      (toolInvocationField .memory).get members = .ok labels.toolInvocation := by
  rw [read, bind_eq_ok]
  refine exists_congr fun members => and_congr_right fun _ => ?_
  rw [bind_eq_ok]
  constructor
  · rintro ⟨invocation, hinvocation, h⟩
    obtain rfl := Except.ok.inj h
    exact hinvocation
  · intro hinvocation
    exact ⟨_, hinvocation, rfl⟩

/-- The labels of a tool are read from the objects that write them. -/
theorem read_datum_eq_ok {fields : List (String × Value)} (h : Accepted (.object fields))
    {labels : ToolLabels} :
    read .memory (Value.object fields).datum = .ok labels ↔
      LabelsRecord (.object fields) labels := by
  have hfields : ((form .memory).fields.map FieldCheck.name).Nodup := List.nodup_singleton _
  rw [read_eq_ok, Value.datum]
  simp only [RecordForm.members_mapping_eq_ok rfl hfields]
  constructor
  · rintro ⟨members, ⟨rfl, hnodup, hknown, -⟩, hget⟩
    rw [Value.map_fst_fieldData] at hnodup hknown
    obtain ⟨invocation⟩ := labels
    have hknown : fields.map Prod.fst ⊆ ["toolInvocation"] := hknown
    rcases eq_nil_or_eq_singleton hnodup hknown with rfl | ⟨literal, rfl⟩
    · obtain rfl := Except.ok.inj hget
      exact .empty
    · have haccepted : Accepted literal := accepted_object.1 h _ List.mem_cons_self
      rw [Value.fieldData, Value.fieldData, get_singleton haccepted] at hget
      obtain ⟨labels, hlabels, rfl⟩ := map_eq_ok.1 hget
      exact .invocation ((InvocationLabels.read_datum_eq_ok haccepted).1 hlabels)
  · intro hrecord
    cases hrecord with
    | empty =>
      have hget : (toolInvocationField .memory).get [] = .ok none := rfl
      exact ⟨[], ⟨rfl, List.nodup_nil, List.nil_subset _,
        List.forall_mem_singleton.2 (RecordField.passes_of_get hget)⟩, hget⟩
    | @invocation literal labels hrecord =>
      have hread := (InvocationLabels.read_datum_eq_ok hrecord.accepted).2 hrecord
      have hget := (get_singleton hrecord.accepted).trans (map_eq_ok.2 ⟨labels, hread, rfl⟩)
      exact ⟨[("toolInvocation", literal.datum)], ⟨rfl, List.nodup_singleton _,
        List.Subset.refl _, List.forall_mem_singleton.2 (RecordField.passes_of_get hget)⟩, hget⟩

end ToolLabels

/-! ## Tools -/

/-- What is read of an argument depends on the literal alone. -/
theorem gives_iff {α : Type} {directive : Directive} {argument : String} {expected : LiteralKind}
    {reader : Reader α} {absent a : α} :
    Gives directive argument expected reader absent a ↔
      (directive.arguments.lookup argument = none ∧ a = absent) ∨
      ∃ literal, directive.arguments.lookup argument = some literal ∧
        LiteralKind.ofValue literal = expected ∧ Accepted literal ∧
        reader literal.datum = .ok a := by
  constructor
  · intro h
    cases h with
    | absent hlookup => exact .inl ⟨hlookup, rfl⟩
    | given literal value _ hlookup hkind hdecode hread =>
      rw [toDatum_of_decode hdecode] at hread
      exact .inr ⟨literal, hlookup, hkind,
        firstRefused?_eq_none.1 (PlainValue.exists_decode_eq_ok.1 ⟨value, hdecode⟩), hread⟩
  · rintro (⟨hlookup, rfl⟩ | ⟨literal, hlookup, hkind, haccepted, hread⟩)
    · exact .absent hlookup
    · obtain ⟨value, hdecode⟩ :=
        PlainValue.exists_decode_eq_ok.2 (firstRefused?_eq_none.2 haccepted)
      rw [← toDatum_of_decode hdecode] at hread
      exact .given literal value a hlookup hkind hdecode hread

/-- What the argument for extra inputs gives: a list of which each item writes one. -/
inductive InputsOf : Option Value → List ExtraInput → Prop where
  | absent : InputsOf none []
  | given {items : List Value} {inputs : List ExtraInput}
    (h : List.Forall₂ (fun item input => TextRecord input.texts item) items inputs) :
    InputsOf (some (.list items)) inputs

/-- What the argument for labels gives. -/
inductive LabelsOf : Option Value → Option ToolLabels → Prop where
  | absent : LabelsOf none none
  | given {literal : Value} {labels : ToolLabels} (h : LabelsRecord literal labels) :
    LabelsOf (some literal) (some labels)

theorem extraInputsReader_list {items : List Value} {inputs : List ExtraInput} :
    extraInputsReader (Value.list items).datum = .ok inputs ↔
      List.Forall₂ (fun item input => TextRecord input.texts item) items inputs := by
  rw [Value.datum, Value.itemData_eq, extraInputsReader, Reader.list, mapM_eq_ok,
    List.forall₂_map_left_iff]
  simp only [ExtraInput.read_datum_eq_ok]

theorem gives_extraInputs_iff {directive : Directive} {inputs : List ExtraInput} :
    Gives directive "extraInputs" .list extraInputsReader [] inputs ↔
      InputsOf (directive.arguments.lookup "extraInputs") inputs := by
  rw [gives_iff]
  constructor
  · rintro (⟨hlookup, rfl⟩ | ⟨literal, hlookup, hkind, -, hread⟩)
    · rw [hlookup]
      exact .absent
    · rw [hlookup]
      cases literal with
      | list items => exact .given (extraInputsReader_list.1 hread)
      | _ => cases hkind
  · generalize directive.arguments.lookup "extraInputs" = found
    intro h
    cases h with
    | absent => exact .inl ⟨rfl, rfl⟩
    | given h =>
      have haccepted := h.imp fun item input hrecord => And.intro hrecord.accepted hrecord
      exact .inr ⟨_, rfl, rfl, accepted_list.2 ((List.forall₂_and_left _ _).1 haccepted).1,
        extraInputsReader_list.2 h⟩

theorem gives_labels_iff {directive : Directive} {labels : Option ToolLabels} :
    Gives directive "labels" .object labelsReader none labels ↔
      LabelsOf (directive.arguments.lookup "labels") labels := by
  rw [gives_iff]
  constructor
  · rintro (⟨hlookup, rfl⟩ | ⟨literal, hlookup, hkind, haccepted, hread⟩)
    · rw [hlookup]
      exact .absent
    · rw [hlookup]
      cases literal with
      | object fields =>
        obtain ⟨labels, hlabels, rfl⟩ := map_eq_ok.1 hread
        exact .given ((ToolLabels.read_datum_eq_ok haccepted).1 hlabels)
      | _ => cases hkind
  · generalize directive.arguments.lookup "labels" = found
    intro h
    cases h with
    | absent => exact .inl ⟨rfl, rfl⟩
    | @given literal labels h =>
      obtain ⟨fields, rfl⟩ := h.exists_eq_object
      exact .inr ⟨_, rfl, rfl, h.accepted,
        map_eq_ok.2 ⟨_, (ToolLabels.read_datum_eq_ok h.accepted).2 h, rfl⟩⟩

/-- **The records of a tool.**  The checks of the extra inputs and of the labels of a
directive `@tool` pass exactly if the arguments are absent or write such records, and the
tool has these.  Each extra input has its three texts, labels have some of theirs, and
nothing else stands in them; a record is an object or the list of its texts. -/
theorem compileTool_shape (directive : Directive) :
    (∀ inputs, typedArgument directive "extraInputs" .list extraInputsReader [] = .ok inputs ↔
      InputsOf (directive.arguments.lookup "extraInputs") inputs) ∧
    (∀ labels, typedArgument directive "labels" .object labelsReader none = .ok labels ↔
      LabelsOf (directive.arguments.lookup "labels") labels) ∧
    ∀ tool, compileTool directive = .ok tool ↔
      directive.arguments.lookup "name" = some (.string tool.name) ∧
      (∀ c ∈ tool.name.toList, Text.isBlank c = false) ∧
      directive.arguments.lookup "description" = some (.string tool.description) ∧
      InputsOf (directive.arguments.lookup "extraInputs") tool.extraInputs ∧
      LabelsOf (directive.arguments.lookup "labels") tool.labels := by
  refine ⟨fun inputs => ?_, fun labels => ?_, fun tool => ?_⟩
  · rw [typedArgument_eq_ok, gives_extraInputs_iff]
  · rw [typedArgument_eq_ok, gives_labels_iff]
  · rw [compileTool_eq_ok, ← gives_extraInputs_iff, ← gives_labels_iff]
    constructor
    · rintro ⟨hname, hunspaced, hdescription, hinputs, hlabels⟩
      exact ⟨hname, hunspaced, hdescription, hinputs, hlabels⟩
    · rintro ⟨hname, hunspaced, hdescription, hinputs, hlabels⟩
      exact ⟨hname, hunspaced, hdescription, hinputs, hlabels⟩

/-- A tool with an extra input and labels that are lists, and an extra input that is an
object. -/
def listingTool : Directive :=
  ⟨"tool", [("name", .string "n"), ("description", .string "d"),
    ("extraInputs", .list [.list [.string "a", .string "string", .string "d"],
      .object [("description", .string "e"), ("name", .string "b"), ("type", .string "boolean")]]),
    ("labels", .object [("toolInvocation", .list [.string "i"])])]⟩

theorem compileTool_shape_listingTool :
    compileTool listingTool = .ok ⟨"n", "d", [⟨"a", "string", "d"⟩, ⟨"b", "boolean", "e"⟩],
      some ⟨some ⟨some "i", none⟩⟩⟩ := by
  have hlist : TextRecord (ExtraInput.texts ⟨"a", "string", "d"⟩)
      (.list [.string "a", .string "string", .string "d"]) :=
    @TextRecord.list _ ["a", "string", "d"] 0 rfl
  have hobject : TextRecord (ExtraInput.texts ⟨"b", "boolean", "e"⟩)
      (.object ([("description", .string "e")] ++
        [("name", .string "b"), ("type", .string "boolean")])) :=
    .object List.perm_append_comm
  have hlabels : TextRecord (InvocationLabels.texts ⟨some "i", none⟩) (.list [.string "i"]) :=
    @TextRecord.list _ ["i"] 1 rfl
  exact ((compileTool_shape listingTool).2.2 _).2 ⟨rfl, checkToolName_eq_ok.1 rfl, rfl,
    .given (.cons hlist (.cons hobject .nil)), .given (.invocation hlabels)⟩

end OpManifest
