import OpManifest.Proofs.Assembly
import OpManifest.Proofs.Json
import OpManifest.Proofs.Record
import OpManifest.Proofs.Store

/-!
# Manifests as texts

Every record of a manifest is read back from the JSON that it is written as: a
part that is left out of it is one that has the default.  So a manifest is read
back from its text (`Manifest.ofText_text`) and from its file
(`Manifest.read_back`), however often it is written and read again.  The index is
not written, and what is read has the one of its operations
(`Manifest.reindex_of_ofText`).
-/

namespace OpManifest

open Data

/-! ## Written records -/

namespace Json

@[simp]
theorem toDatum_string (value : String) : (Json.string value).toDatum = .text value := by
  rw [toDatum]

@[simp]
theorem toDatum_boolean (value : Bool) : (Json.boolean value).toDatum = .boolean value := by
  rw [toDatum]

@[simp]
theorem toDatum_object (members : List (String × Json)) :
    (Json.object members).toDatum = .mapping (membersToData members) false := by
  rw [toDatum]

@[simp]
theorem toDatum_array (items : List Json) :
    (Json.array items).toDatum = .sequence (items.map toDatum) := by
  rw [toDatum]
  congr 1
  induction items with
  | nil => rfl
  | cons item items ih => rw [itemsToData, ih, List.map_cons]

/-- The members of a written record, by the names of its fields; a field that
has no value is left out. -/
def written (slots : List (String × Option Json)) : List (String × Json) :=
  slots.filterMap fun (name, value) => value.map (name, ·)

/-- What a reader finds of a written record. -/
def writtenData (slots : List (String × Option Json)) : List (String × Datum) :=
  membersToData (written slots)

@[simp]
theorem lookup_writtenData_nil (name : String) : (writtenData []).lookup name = none := rfl

@[simp]
theorem lookup_writtenData_cons (slots : List (String × Option Json)) (key : String)
    (value : Option Json) (name : String) :
    (writtenData ((key, value) :: slots)).lookup name =
      (if name = key then value.map toDatum else none).or ((writtenData slots).lookup name) := by
  cases value with
  | none => simp [writtenData, written]
  | some value =>
    have hcons : writtenData ((key, some value) :: slots) =
        (key, value.toDatum) :: writtenData slots := rfl
    rw [hcons, List.lookup_cons]
    by_cases h : name = key
    · simp [h]
    · simp [h, beq_false_of_ne h]

/-- The names of what was written stand in the order of the fields. -/
theorem map_fst_writtenData (slots : List (String × Option Json)) :
    ((writtenData slots).map Prod.fst).Sublist (slots.map Prod.fst) := by
  induction slots with
  | nil => exact .refl []
  | cons slot slots ih =>
    obtain ⟨key, value⟩ := slot
    cases value with
    | none => exact ih.cons key
    | some value => exact ih.cons_cons key

end Json

namespace Data

variable {α : Type} {slots : List (String × Option Json)}

namespace RecordField

/-- A field that is always written is read. -/
theorem get_required {name : String} {read : Reader α} {value : α} (write : α → Json)
    (h : (Json.writtenData slots).lookup name = some (write value).toDatum)
    (hread : ∀ a, read (write a).toDatum = .ok a) :
    (RecordField.required name read).get (Json.writtenData slots) = .ok value := by
  rw [get_of_lookup h]
  exact hread value

/-- A field with a default that is always written is read. -/
theorem get_withDefault {name : String} {read : Reader α} {value absent : α} (write : α → Json)
    (h : (Json.writtenData slots).lookup name = some (write value).toDatum)
    (hread : ∀ a, read (write a).toDatum = .ok a) :
    (RecordField.withDefault name read absent).get (Json.writtenData slots) = .ok value := by
  rw [get_of_lookup h]
  exact hread value

/-- A field that was written only if it has a value is read, provided that no
value is written as null. -/
theorem get_optional {name : String} {read : Reader α} {value : Option α} (write : α → Json)
    (h : (Json.writtenData slots).lookup name = (value.map write).map Json.toDatum)
    (hread : ∀ a, read (write a).toDatum = .ok a) (hnull : ∀ a, (write a).toDatum ≠ .null) :
    (RecordField.withDefault name (Reader.optional read) none).get (Json.writtenData slots) =
      .ok value := by
  cases value with
  | none => exact get_of_absent h rfl
  | some a =>
    rw [get_of_lookup h]
    have hsome : Reader.optional read (write a).toDatum = some <$> read (write a).toDatum := by
      rw [Reader.optional]
      exact hnull a
    simp only [withDefault, hsome, hread]
    rfl

end RecordField

/-- A record whose fields pass all checks is read with all that was written of
it. -/
theorem RecordForm.members_written (form : RecordForm) (origin : Origin)
    (slots : List (String × Option Json))
    (hnames : form.fields.map FieldCheck.name = slots.map Prod.fst)
    (hnodup : (slots.map Prod.fst).Nodup)
    (hpasses : ∀ check ∈ form.fields, check.Passes (Json.writtenData slots)) :
    form.members origin (Json.object (Json.written slots)).toDatum =
      .ok (Json.writtenData slots) := by
  have hsublist := Json.map_fst_writtenData slots
  rw [Json.toDatum_object]
  apply members_of_passes
  · rwa [hnames]
  · exact hnodup.sublist hsublist
  · rw [hnames]
    exact hsublist.subset
  · exact hpasses

/-- What was written item by item is read item by item. -/
theorem Reader.list_map {read : Reader α} {write : α → Json}
    (h : ∀ a, read (write a).toDatum = .ok a) (as : List α) :
    Reader.list read (Json.array (as.map write)).toDatum = .ok as := by
  rw [Json.toDatum_array, List.map_map, Reader.list]
  induction as with
  | nil => rfl
  | cons a as ih =>
    rw [List.map_cons, List.mapM_cons, Function.comp_apply, h, ih]
    rfl

/-- A mapping that was not cut off is read member by member. -/
theorem Reader.mapping_eq (read : Reader α) (members : List (String × Datum)) :
    Reader.mapping read (.mapping members false) =
      members.mapM fun member => do return (member.1, ← read member.2) := by
  rw [Reader.mapping]
  exact bind_pure _

theorem Reader.text_string (value : String) :
    Reader.text (Json.string value).toDatum = .ok value := by
  rw [Json.toDatum_string]
  rfl

theorem Reader.boolean_boolean (value : Bool) :
    Reader.boolean (Json.boolean value).toDatum = .ok value := by
  rw [Json.toDatum_boolean]
  rfl

end Data

/-! ## Labels and tools -/

namespace InvocationLabels

/-- What is written of the labels, field by field. -/
def slots (labels : InvocationLabels) : List (String × Option Json) :=
  [("invoking", labels.invoking.map .string), ("invoked", labels.invoked.map .string)]

theorem toJson_eq (labels : InvocationLabels) :
    labels.toJson = .object (Json.written labels.slots) := by
  obtain ⟨invoking, invoked⟩ := labels
  cases invoking <;> cases invoked <;> rfl

theorem read_toJson (origin : Origin) (labels : InvocationLabels) :
    read origin labels.toJson.toDatum = .ok labels := by
  have hinvoking : invokingField.get (Json.writtenData labels.slots) = .ok labels.invoking :=
    RecordField.get_optional .string (by simp [slots]) Reader.text_string (by simp)
  have hinvoked : invokedField.get (Json.writtenData labels.slots) = .ok labels.invoked :=
    RecordField.get_optional .string (by simp [slots]) Reader.text_string (by simp)
  have hmembers := RecordForm.members_written form origin labels.slots rfl (by simp [slots])
    (by simp [form, RecordField.passes_of_get hinvoking, RecordField.passes_of_get hinvoked])
  rw [toJson_eq]
  simp only [read, hmembers, hinvoking, hinvoked, bind, Except.bind]
  rfl

end InvocationLabels

namespace ToolLabels

/-- What is written of the labels, field by field. -/
def slots (labels : ToolLabels) : List (String × Option Json) :=
  [("toolInvocation", labels.toolInvocation.map InvocationLabels.toJson)]

theorem toJson_eq (labels : ToolLabels) : labels.toJson = .object (Json.written labels.slots) := by
  obtain ⟨toolInvocation⟩ := labels
  cases toolInvocation <;> rfl

theorem read_toJson (origin : Origin) (labels : ToolLabels) :
    read origin labels.toJson.toDatum = .ok labels := by
  have hinvocation : (toolInvocationField origin).get (Json.writtenData labels.slots) =
      .ok labels.toolInvocation :=
    RecordField.get_optional InvocationLabels.toJson (by simp [slots])
      (InvocationLabels.read_toJson origin) (by simp [InvocationLabels.toJson])
  have hmembers := RecordForm.members_written (form origin) origin labels.slots rfl
    (by simp [slots])
    (by simp [form, RecordField.passes_of_get hinvocation])
  rw [toJson_eq]
  simp only [read, hmembers, hinvocation, bind, Except.bind]
  rfl

end ToolLabels

namespace ExtraInput

/-- What is written of the input, field by field. -/
def slots (input : ExtraInput) : List (String × Option Json) :=
  [("name", some (.string input.name)), ("type", some (.string input.type)),
    ("description", some (.string input.description))]

theorem toJson_eq (input : ExtraInput) : input.toJson = .object (Json.written input.slots) := rfl

theorem read_toJson (origin : Origin) (input : ExtraInput) :
    read origin input.toJson.toDatum = .ok input := by
  have hname : nameField.get (Json.writtenData input.slots) = .ok input.name :=
    RecordField.get_required .string (by simp [slots]) Reader.text_string
  have htype : typeField.get (Json.writtenData input.slots) = .ok input.type :=
    RecordField.get_required .string (by simp [slots]) Reader.text_string
  have hdescription : descriptionField.get (Json.writtenData input.slots) =
      .ok input.description :=
    RecordField.get_required .string (by simp [slots]) Reader.text_string
  have hmembers := RecordForm.members_written form origin input.slots rfl (by simp [slots])
    (by simp [form, RecordField.passes_of_get hname, RecordField.passes_of_get htype,
      RecordField.passes_of_get hdescription])
  rw [toJson_eq]
  simp only [read, hmembers, hname, htype, hdescription, bind, Except.bind]
  rfl

end ExtraInput

namespace ToolSpec

/-- What is written of the tool, field by field. -/
def slots (tool : ToolSpec) : List (String × Option Json) :=
  [("name", some (.string tool.name)), ("description", some (.string tool.description)),
    ("extraInputs", if tool.extraInputs.isEmpty then none
      else some (.array (tool.extraInputs.map ExtraInput.toJson))),
    ("labels", tool.labels.map ToolLabels.toJson)]

theorem toJson_eq (tool : ToolSpec) : tool.toJson = .object (Json.written tool.slots) := by
  obtain ⟨name, description, extraInputs, labels⟩ := tool
  cases extraInputs <;> cases labels <;> rfl

theorem get_extraInputs (origin : Origin) (tool : ToolSpec) :
    (extraInputsField origin).get (Json.writtenData tool.slots) = .ok tool.extraInputs := by
  obtain ⟨name, description, extraInputs, labels⟩ := tool
  cases extraInputs with
  | nil =>
    have habsent : (Json.writtenData (slots ⟨name, description, [], labels⟩)).lookup
        "extraInputs" = none := by simp [slots]
    exact RecordField.get_of_absent habsent rfl
  | cons input inputs =>
    exact RecordField.get_withDefault (fun inputs => .array (inputs.map ExtraInput.toJson))
      (by simp [slots]) (Reader.list_map (ExtraInput.read_toJson origin))

theorem read_toJson (origin : Origin) (tool : ToolSpec) :
    read origin tool.toJson.toDatum = .ok tool := by
  have hname : nameField.get (Json.writtenData tool.slots) = .ok tool.name :=
    RecordField.get_required .string (by simp [slots]) Reader.text_string
  have hdescription : descriptionField.get (Json.writtenData tool.slots) = .ok tool.description :=
    RecordField.get_required .string (by simp [slots]) Reader.text_string
  have hinputs := get_extraInputs origin tool
  have hlabels : (labelsField origin).get (Json.writtenData tool.slots) = .ok tool.labels :=
    RecordField.get_optional ToolLabels.toJson (by simp [slots]) (ToolLabels.read_toJson origin)
      (by simp [ToolLabels.toJson])
  have hmembers := RecordForm.members_written (form origin) origin tool.slots rfl (by simp [slots])
    (by simp [form, RecordField.passes_of_get hname, RecordField.passes_of_get hdescription,
      RecordField.passes_of_get hinputs, RecordField.passes_of_get hlabels])
  rw [toJson_eq]
  simp only [read, hmembers, hname, hdescription, hinputs, hlabels, bind, Except.bind]
  rfl

end ToolSpec

/-! ## Operations -/

theorem OperationType.read_name (origin : Origin) (type : OperationType) :
    read origin (Json.string type.name).toDatum = .ok type := by
  rw [Json.toDatum_string]
  cases type <;> rfl

namespace Dictionary

/-- A dictionary is made of its members. -/
theorem ofList_toList (d : Dictionary) : Std.ExtTreeMap.ofList d.toList = d := by
  apply Std.ExtTreeMap.ext_getElem?
  intro key
  cases h : d[key]? with
  | some value =>
    exact Std.ExtTreeMap.getElem?_ofList_of_mem Std.ReflCmp.compare_self
      Std.ExtTreeMap.distinct_keys_toList (Std.ExtTreeMap.mem_toList_iff_getElem?_eq_some.2 h)
  | none =>
    apply Std.ExtTreeMap.getElem?_ofList_of_contains_eq_false
    simpa using h

theorem mapping_text (members : List (String × String)) :
    Reader.mapping Reader.text
      (Json.object (members.map fun (key, value) => (key, .string value))).toDatum =
      .ok members := by
  rw [Json.toDatum_object, Reader.mapping_eq]
  induction members with
  | nil => rfl
  | cons member members ih =>
    obtain ⟨key, value⟩ := member
    simp only [List.map_cons, Json.membersToData, List.mapM_cons, Reader.text_string, ih]
    rfl

/-- A dictionary is read back from its members. -/
theorem read_toJson (d : Dictionary) : read d.toJson.toDatum = .ok d := by
  rw [read, toJson, mapping_text]
  exact congrArg Except.ok d.ofList_toList

end Dictionary

namespace OperationDescriptor

/-- What is written of the operation, field by field. -/
def slots (operation : OperationDescriptor) : List (String × Option Json) :=
  [("id", some (.string operation.id)), ("name", some (.string operation.name)),
    ("type", some (.string operation.type.name)), ("body", some (.string operation.body)),
    ("variables", some operation.variableTypes.toJson),
    ("prefetch", some (.boolean operation.prefetch)),
    ("prefetchID", operation.prefetchId.map .string),
    ("tools", some (.array (operation.tools.map ToolSpec.toJson)))]

theorem toJson_eq (operation : OperationDescriptor) :
    operation.toJson = .object (Json.written operation.slots) := by
  obtain ⟨_, _, _, _, _, _, prefetchId, _⟩ := operation
  cases prefetchId <;> rfl

theorem read_toJson (origin : Origin) (operation : OperationDescriptor) :
    read origin operation.toJson.toDatum = .ok operation := by
  have hid : idField.get (Json.writtenData operation.slots) = .ok operation.id :=
    RecordField.get_required .string (by simp [slots]) Reader.text_string
  have hname : nameField.get (Json.writtenData operation.slots) = .ok operation.name :=
    RecordField.get_required .string (by simp [slots]) Reader.text_string
  have htype : (typeField origin).get (Json.writtenData operation.slots) = .ok operation.type :=
    RecordField.get_required (fun type => .string type.name) (by simp [slots])
      (OperationType.read_name origin)
  have hbody : bodyField.get (Json.writtenData operation.slots) = .ok operation.body :=
    RecordField.get_required .string (by simp [slots]) Reader.text_string
  have hvariables : variableTypesField.get (Json.writtenData operation.slots) =
      .ok operation.variableTypes :=
    RecordField.get_withDefault Dictionary.toJson (by simp [slots]) Dictionary.read_toJson
  have hprefetch : prefetchField.get (Json.writtenData operation.slots) = .ok operation.prefetch :=
    RecordField.get_withDefault .boolean (by simp [slots]) Reader.boolean_boolean
  have hprefetchId : prefetchIdField.get (Json.writtenData operation.slots) =
      .ok operation.prefetchId :=
    RecordField.get_optional .string (by simp [slots]) Reader.text_string (by simp)
  have htools : (toolsField origin).get (Json.writtenData operation.slots) =
      .ok operation.tools :=
    RecordField.get_withDefault (fun tools => .array (tools.map ToolSpec.toJson))
      (by simp [slots]) (Reader.list_map (ToolSpec.read_toJson origin))
  have hmembers := RecordForm.members_written (form origin) origin operation.slots rfl
    (by simp [slots])
    (by simp [form, RecordField.passes_of_get hid, RecordField.passes_of_get hname,
      RecordField.passes_of_get htype, RecordField.passes_of_get hbody,
      RecordField.passes_of_get hvariables, RecordField.passes_of_get hprefetch,
      RecordField.passes_of_get hprefetchId, RecordField.passes_of_get htools])
  rw [toJson_eq]
  simp only [read, hmembers, hid, hname, htype, hbody, hvariables, hprefetch, hprefetchId, htools,
    bind, Except.bind]
  rfl

end OperationDescriptor

/-! ## Host settings -/

/-- A list of texts is read back. -/
theorem Reader.list_strings (texts : List String) :
    Reader.list Reader.text (Json.strings texts).toDatum = .ok texts :=
  Reader.list_map Reader.text_string texts

namespace ContentPolicy

/-- What is written of the policy, field by field. -/
def slots (policy : ContentPolicy) : List (String × Option Json) :=
  [("connectDomains", some (.strings policy.connectDomains)),
    ("resourceDomains", some (.strings policy.resourceDomains)),
    ("frameDomains", some (.strings policy.frameDomains)),
    ("redirectDomains", some (.strings policy.redirectDomains))]

theorem toJson_eq (policy : ContentPolicy) :
    policy.toJson = .object (Json.written policy.slots) := rfl

theorem get_domains {slots : List (String × Option Json)} {name : String} {texts : List String}
    (h : (Json.writtenData slots).lookup name = some (Json.strings texts).toDatum) :
    (domainsField name).get (Json.writtenData slots) = .ok texts :=
  RecordField.get_withDefault Json.strings h Reader.list_strings

theorem read_toJson (origin : Origin) (policy : ContentPolicy) :
    read origin policy.toJson.toDatum = .ok policy := by
  have hconnect : (domainsField "connectDomains").get (Json.writtenData policy.slots) =
      .ok policy.connectDomains := get_domains (by simp [slots])
  have hresource : (domainsField "resourceDomains").get (Json.writtenData policy.slots) =
      .ok policy.resourceDomains := get_domains (by simp [slots])
  have hframe : (domainsField "frameDomains").get (Json.writtenData policy.slots) =
      .ok policy.frameDomains := get_domains (by simp [slots])
  have hredirect : (domainsField "redirectDomains").get (Json.writtenData policy.slots) =
      .ok policy.redirectDomains := get_domains (by simp [slots])
  have hmembers := RecordForm.members_written
    ⟨"Csp", [domainsField "connectDomains", domainsField "resourceDomains",
      domainsField "frameDomains", domainsField "redirectDomains"].map RecordField.toCheck, false⟩
    origin policy.slots rfl (by simp [slots])
    (by simp [RecordField.passes_of_get hconnect, RecordField.passes_of_get hresource,
      RecordField.passes_of_get hframe, RecordField.passes_of_get hredirect])
  rw [toJson_eq]
  simp only [read, readDomains, hmembers, hconnect, hresource, hframe, hredirect, bind, Except.bind]
  rfl

end ContentPolicy

namespace WidgetSettings

/-- What is written of the settings, field by field. -/
def slots (settings : WidgetSettings) : List (String × Option Json) :=
  [("prefersBorder", settings.prefersBorder.map .boolean),
    ("domain", settings.domain.map .string), ("description", settings.description.map .string)]

theorem toJson_eq (settings : WidgetSettings) :
    settings.toJson = .object (Json.written settings.slots) := by
  obtain ⟨prefersBorder, domain, description⟩ := settings
  cases prefersBorder <;> cases domain <;> cases description <;> rfl

theorem read_toJson (origin : Origin) (settings : WidgetSettings) :
    read origin settings.toJson.toDatum = .ok settings := by
  have hborder : prefersBorderField.get (Json.writtenData settings.slots) =
      .ok settings.prefersBorder :=
    RecordField.get_optional .boolean (by simp [slots]) Reader.boolean_boolean (by simp)
  have hdomain : domainField.get (Json.writtenData settings.slots) = .ok settings.domain :=
    RecordField.get_optional .string (by simp [slots]) Reader.text_string (by simp)
  have hdescription : descriptionField.get (Json.writtenData settings.slots) =
      .ok settings.description :=
    RecordField.get_optional .string (by simp [slots]) Reader.text_string (by simp)
  have hmembers := RecordForm.members_written form origin settings.slots rfl (by simp [slots])
    (by simp [form, RecordField.passes_of_get hborder, RecordField.passes_of_get hdomain,
      RecordField.passes_of_get hdescription])
  rw [toJson_eq]
  simp only [read, hmembers, hborder, hdomain, hdescription, bind, Except.bind]
  rfl

end WidgetSettings

/-! ## Manifests -/

namespace Manifest

/-- What is written of the manifest, field by field. -/
def slots (manifest : Manifest) : List (String × Option Json) :=
  [("format", some (.string manifest.format)), ("version", some (.string manifest.version)),
    ("name", some (.string manifest.name)), ("description", some (.string manifest.description)),
    ("hash", some (.string manifest.hash)), ("resource", some (.string manifest.resource)),
    ("operations", some (.array (manifest.operations.map OperationDescriptor.toJson))),
    ("csp", some manifest.policy.toJson), ("widgetSettings", some manifest.widgetSettings.toJson),
    ("labels", some manifest.labels.toJson)]

theorem toJson_eq (manifest : Manifest) :
    manifest.toJson = .object (Json.written manifest.slots) := rfl

/-- What is written of a manifest is read back.  Only the index is not written. -/
theorem read_toJson (origin : Origin) (manifest : Manifest) :
    read origin manifest.toJson.toDatum = .ok { manifest with index := ∅ } := by
  have hformat : formatField.get (Json.writtenData manifest.slots) = .ok manifest.format :=
    RecordField.get_required .string (by simp [slots]) Reader.text_string
  have hversion : versionField.get (Json.writtenData manifest.slots) = .ok manifest.version :=
    RecordField.get_required .string (by simp [slots]) Reader.text_string
  have hname : nameField.get (Json.writtenData manifest.slots) = .ok manifest.name :=
    RecordField.get_required .string (by simp [slots]) Reader.text_string
  have hdescription : descriptionField.get (Json.writtenData manifest.slots) =
      .ok manifest.description :=
    RecordField.get_withDefault .string (by simp [slots]) Reader.text_string
  have hhash : hashField.get (Json.writtenData manifest.slots) = .ok manifest.hash :=
    RecordField.get_required .string (by simp [slots]) Reader.text_string
  have hresource : resourceField.get (Json.writtenData manifest.slots) = .ok manifest.resource :=
    RecordField.get_required .string (by simp [slots]) Reader.text_string
  have hoperations : (operationsField origin).get (Json.writtenData manifest.slots) =
      .ok manifest.operations :=
    RecordField.get_withDefault (fun operations => .array (operations.map
      OperationDescriptor.toJson)) (by simp [slots])
      (Reader.list_map (OperationDescriptor.read_toJson origin))
  have hpolicy : (policyField origin).get (Json.writtenData manifest.slots) = .ok manifest.policy :=
    RecordField.get_withDefault ContentPolicy.toJson (by simp [slots])
      (ContentPolicy.read_toJson origin)
  have hsettings : (widgetSettingsField origin).get (Json.writtenData manifest.slots) =
      .ok manifest.widgetSettings :=
    RecordField.get_withDefault WidgetSettings.toJson (by simp [slots])
      (WidgetSettings.read_toJson origin)
  have hlabels : (labelsField origin).get (Json.writtenData manifest.slots) = .ok manifest.labels :=
    RecordField.get_withDefault ToolLabels.toJson (by simp [slots]) (ToolLabels.read_toJson origin)
  have hmembers := RecordForm.members_written (form origin) origin manifest.slots rfl
    (by simp [slots])
    (by simp [form, RecordField.passes_of_get hformat, RecordField.passes_of_get hversion,
      RecordField.passes_of_get hname, RecordField.passes_of_get hdescription,
      RecordField.passes_of_get hhash, RecordField.passes_of_get hresource,
      RecordField.passes_of_get hoperations, RecordField.passes_of_get hpolicy,
      RecordField.passes_of_get hsettings, RecordField.passes_of_get hlabels])
  rw [toJson_eq]
  simp only [read, hmembers, hformat, hversion, hname, hdescription, hhash, hresource, hoperations,
    hpolicy, hsettings, hlabels, bind, Except.bind]
  rfl

/-- A manifest is read back from its text, with an index that is built anew. -/
theorem ofText_text (manifest : Manifest) : ofText manifest.text = .ok manifest.reindex := by
  rw [ofText, text, Json.readText_pretty, read_toJson]
  rfl

/-- A manifest that was read has the index of its operations. -/
theorem reindex_of_ofText {manifest : Manifest} {text : String}
    (h : ofText text = .ok manifest) : manifest.reindex = manifest := by
  rw [ofText] at h
  cases hread : Json.readText (read .json) text with
  | error fault => simp [hread] at h
  | ok written =>
    rw [hread] at h
    obtain rfl := Except.ok.inj h
    exact written.reindex_reindex

/-- What becomes of a text that is read and written again so many times. -/
def rewrite (text : String) : Nat → Except Fault String
  | 0 => .ok text
  | n + 1 => (rewrite text n).bind fun again => Manifest.text <$> ofText again

/-- The text settles when it is written for the first time. -/
theorem rewrite_succ {manifest : Manifest} {text : String} (h : ofText text = .ok manifest)
    (n : Nat) : rewrite text (n + 1) = .ok manifest.text := by
  induction n with
  | zero =>
    simp only [rewrite, Except.bind, h]
    rfl
  | succ n ih =>
    rw [rewrite, ih]
    simp only [Except.bind, ofText_text]
    rfl

/-- A manifest that was read is the same however often it is written and read
again. -/
theorem ofText_rewrite {manifest : Manifest} {text : String} (h : ofText text = .ok manifest)
    (n : Nat) : (rewrite text n).bind ofText = .ok manifest := by
  cases n with
  | zero => exact h
  | succ n =>
    rw [rewrite_succ h]
    simp only [Except.bind, ofText_text, reindex_of_ofText h]

end Manifest

/-! ## Manifest files -/

namespace Manifest

/-- A manifest that was saved is loaded again, with an index that is built anew. -/
theorem load_of_save {manifest : Manifest} {tree after : FileTree} {path : Path}
    (h : manifest.save tree path = (after, .ok ())) :
    load after path = .ok manifest.reindex := by
  have htext := FileTree.readText_eq_ok_iff.2 (FileTree.readBytes_of_replace h)
  rw [load, htext]
  simp only [ofText_text]

/-- A manifest that was loaded was read from the text of the file. -/
theorem ofText_of_load {manifest : Manifest} {tree : FileTree} {path : Path}
    (h : load tree path = .ok manifest) :
    ∃ text, tree.readText path = .ok text ∧ ofText text = .ok manifest := by
  rw [load] at h
  split at h
  · cases h
  · rename_i text hread
    split at h
    · cases h
    · rename_i loaded htext
      obtain rfl := Except.ok.inj h
      exact ⟨text, hread, htext⟩

/-- A manifest is the same after it was written and read, as a text or as a file,
apart from its index: whatever the index was before, it is then the one of the
operations and finds the last of each name.  Of any text that a manifest was read
from, reading and writing again gives the same manifest and, from the first time
on, the same text. -/
theorem read_back (manifest : Manifest) :
    ofText manifest.text = .ok manifest.reindex ∧
      manifest.reindex = { manifest with index := manifest.reindex.index } ∧
      manifest.reindex.Indexed ∧
      (∀ tree path after, manifest.save tree path = (after, .ok ()) →
        load after path = .ok manifest.reindex) ∧
      ∀ text, ofText text = .ok manifest → ∀ n,
        (rewrite text n).bind ofText = .ok manifest ∧
          rewrite text (n + 1) = .ok manifest.text :=
  ⟨manifest.ofText_text, rfl, manifest.indexed_reindex, fun _ _ _ => load_of_save,
    fun _ htext n => ⟨ofText_rewrite htext n, rewrite_succ htext n⟩⟩

/-- A manifest in a text that lacks what has a default, has its fields in
another order and one that no manifest has. -/
def sparseText : String :=
  "\x7b\"name\": \"Shop\", \"hash\": \"h\", \"resource\": \"\", \"format\": \"f\", " ++
    "\"version\": \"1\", \"more\": [], \"labels\": \x7b\x7d\x7d"

theorem read_back_sparseText :
    ∃ manifest, ofText sparseText = .ok manifest ∧ manifest.text ≠ sparseText ∧
      rewrite sparseText 2 = .ok manifest.text ∧
      load (manifest.save {} ⟨"/shop.json"⟩).1 ⟨"/shop.json"⟩ = .ok manifest := by
  have hfacts : (ofText sparseText).toOption.any (fun manifest =>
      manifest.text != sparseText &&
        (manifest.save {} ⟨"/shop.json"⟩).2.toOption.isSome) = true := by
    decide +kernel
  cases hmanifest : ofText sparseText with
  | error fault => simp [hmanifest, Except.toOption] at hfacts
  | ok manifest =>
    rw [hmanifest] at hfacts
    simp only [Except.toOption, Option.any_some, Bool.and_eq_true, bne_iff_ne] at hfacts
    obtain ⟨hne, hsaved⟩ := hfacts
    obtain ⟨-, -, -, hloads, hsettles⟩ := read_back manifest
    refine ⟨manifest, rfl, hne, (hsettles _ hmanifest 1).2, ?_⟩
    rcases hsave : manifest.save {} ⟨"/shop.json"⟩ with ⟨after, e | ⟨⟩⟩
    · simp [hsave] at hsaved
    · rw [hloads _ _ after hsave, reindex_of_ofText hmanifest]

end Manifest

end OpManifest
