import OpManifest.Operation.Argument
import OpManifest.Proofs.Faultless
import OpManifest.Proofs.GraphQL.Phrase

/-!
# What arguments give

The values that the compiler reads out of the arguments of a directive.

* A literal is decoded unless a literal of a kind that is refused stands in it,
  and then the first of these decides (`decode_eq_error`).
* An argument is looked up, checked for its kind and decoded, in this order
  (`found_findArgument`).
* What is decoded is data without faults (`PlainValue.faultless_toDatum`), so a
  reader that refuses it refuses its shape (`readAs_eq_error`).
-/

namespace OpManifest

open Data
open GraphQL (Value Directive)

/-! ## Literals -/

/-- No value that directives accept is written as a literal of the kind. -/
def LiteralKind.isRefused : LiteralKind → Bool
  | .string | .boolean | .list | .object => false
  | .int | .float | .symbol | .null | .reference => true

/-- The kind of the first literal in a value that directives do not accept. -/
def firstRefused? (literal : Value) : Option LiteralKind :=
  (literal.literals.map LiteralKind.ofValue).find? (·.isRefused)

namespace PlainValue

theorem firstRefused?_list (items : List Value) :
    firstRefused? (.list items) = items.findSome? firstRefused? := by
  rw [firstRefused?, Value.literals, Value.itemLiterals_eq, List.map_flatMap, List.find?_flatMap]
  rfl

theorem firstRefused?_object (fields : List (String × Value)) :
    firstRefused? (.object fields) = fields.findSome? fun field => firstRefused? field.2 := by
  rw [firstRefused?, Value.literals, Value.fieldLiterals_eq, List.map_flatMap, List.find?_flatMap]
  rfl

theorem decodeItems_eq (items : List Value) : decodeItems items = items.mapM decode := by
  induction items with
  | nil => rfl
  | cons item items ih => rw [decodeItems, ih, List.mapM_cons]

/-- The value of one field of an object. -/
def decodeNamed (field : String × Value) : Except LiteralKind (String × PlainValue) :=
  (field.1, ·) <$> decode field.2

theorem decodeFields_eq (fields : List (String × Value)) :
    decodeFields fields = fields.mapM decodeNamed := by
  induction fields with
  | nil => rfl
  | cons field fields ih =>
    rw [decodeFields, ih, List.mapM_cons, decodeNamed]
    cases decode field.2 <;> rfl

/-- A list of literals is refused where the first of them is. -/
theorem mapM_eq_error {α β : Type} {decode : α → Except LiteralKind β}
    {refused : α → Option LiteralKind} {items : List α}
    (h : ∀ item ∈ items, ∀ kind, decode item = .error kind ↔ refused item = some kind)
    (kind : LiteralKind) :
    items.mapM decode = .error kind ↔ items.findSome? refused = some kind := by
  induction items with
  | nil => simp [pure, Except.pure]
  | cons item items ih =>
    obtain ⟨hitem, hitems⟩ := List.forall_mem_cons.1 h
    rw [List.mapM_cons, List.findSome?_cons]
    cases hdecode : decode item with
    | error first =>
      rw [(hitem first).1 hdecode]
      simp [bind, Except.bind]
    | ok value =>
      have hnone : refused item = none := by
        rw [Option.eq_none_iff_forall_ne_some]
        intro first hfirst
        rw [← hitem, hdecode] at hfirst
        cases hfirst
      rw [hnone, ← ih hitems]
      cases items.mapM decode <;> simp [bind, Except.bind, pure, Except.pure]

/-- A literal is refused exactly if one of a kind that is refused stands in it,
and then for the first of these. -/
theorem decode_eq_error {literal : Value} (kind : LiteralKind) :
    decode literal = .error kind ↔ firstRefused? literal = some kind := by
  induction literal using Value.byMembers generalizing kind with
  | list items ih =>
    rw [firstRefused?_list, ← mapM_eq_error ih, decode, decodeItems_eq]
    cases items.mapM decode <;> simp [bind, Except.bind, pure, Except.pure]
  | object fields ih =>
    have hfields : ∀ field ∈ fields, ∀ kind,
        decodeNamed field = .error kind ↔ firstRefused? field.2 = some kind := by
      intro field hfield kind
      rw [← ih field hfield, decodeNamed]
      cases decode field.2 <;> simp
    rw [firstRefused?_object, ← mapM_eq_error hfields, decode, decodeFields_eq]
    cases fields.mapM decodeNamed <;> simp [bind, Except.bind, pure, Except.pure]
  | string | boolean | int | float | reference | null | symbol =>
    simp [decode, firstRefused?, Value.literals, LiteralKind.ofValue, LiteralKind.isRefused]

/-- A literal is decoded exactly if no literal in it is refused. -/
theorem exists_decode_eq_ok {literal : Value} :
    (∃ value, decode literal = .ok value) ↔ firstRefused? literal = none := by
  cases hdecode : decode literal with
  | error kind =>
    rw [(decode_eq_error kind).1 hdecode]
    simp
  | ok value =>
    refine ⟨fun _ => ?_, fun _ => ⟨value, rfl⟩⟩
    rw [Option.eq_none_iff_forall_ne_some]
    intro kind hkind
    rw [← decode_eq_error, hdecode] at hkind
    cases hkind

end PlainValue

/-! ## Arguments -/

/-- What becomes of the search for an argument. -/
inductive Found (directive : Directive) (name : String) (expected : LiteralKind) :
    Except CompileError (Option PlainValue) → Prop where
  | absent (hlookup : directive.arguments.lookup name = none) :
    Found directive name expected (.ok none)
  | otherKind (literal : Value) (hlookup : directive.arguments.lookup name = some literal)
    (hkind : LiteralKind.ofValue literal ≠ expected) :
    Found directive name expected (.error (.argumentKind name expected (.ofValue literal)))
  | refused (literal : Value) (kind : LiteralKind)
    (hlookup : directive.arguments.lookup name = some literal)
    (hkind : LiteralKind.ofValue literal = expected)
    (hdecode : PlainValue.decode literal = .error kind) :
    Found directive name expected (.error (.unsupportedLiteral kind))
  | value (literal : Value) (value : PlainValue)
    (hlookup : directive.arguments.lookup name = some literal)
    (hkind : LiteralKind.ofValue literal = expected)
    (hdecode : PlainValue.decode literal = .ok value) :
    Found directive name expected (.ok (some value))

theorem found_findArgument (directive : Directive) (name : String) (expected : LiteralKind) :
    Found directive name expected (findArgument directive name expected) := by
  unfold findArgument
  split
  · rename_i hlookup
    exact .absent hlookup
  · rename_i literal hlookup
    simp only
    split
    · rename_i hkind
      exact .otherKind literal hlookup hkind
    · rename_i hkind
      have hkind : LiteralKind.ofValue literal = expected := not_not.1 hkind
      split
      · rename_i value hdecode
        exact .value literal value hlookup hkind hdecode
      · rename_i kind hdecode
        exact .refused literal kind hlookup hkind hdecode

/-- A required text is that of the first argument with its name. -/
theorem requiredString_eq_ok {directive : Directive} {directiveName argument text : String} :
    requiredString directive directiveName argument = .ok text ↔
      directive.arguments.lookup argument = some (.string text) := by
  have hfound := found_findArgument directive argument .string
  unfold requiredString
  generalize findArgument directive argument .string = result at hfound
  cases hfound with
  | absent hlookup =>
    rw [hlookup]
    simp [bind, Except.bind, throw, throwThe, MonadExceptOf.throw]
  | otherKind literal hlookup hkind =>
    rw [hlookup]
    refine ⟨nofun, fun h => ?_⟩
    rw [Option.some.inj h] at hkind
    exact absurd rfl hkind
  | refused literal kind hlookup hkind hdecode =>
    rw [hlookup]
    refine ⟨nofun, fun h => ?_⟩
    rw [Option.some.inj h] at hdecode
    cases hdecode
  | value literal value hlookup hkind hdecode =>
    rw [hlookup]
    cases literal with
    | string found =>
      cases hdecode
      simp [bind, Except.bind, pure, Except.pure]
    | _ => cases hkind

/-! ## Values -/

namespace PlainValue

/-- To show something of all plain values, show it of lists and objects whose
members have it, and of all others. -/
theorem byMembers {motive : PlainValue → Prop} (string : ∀ text, motive (.string text))
    (boolean : ∀ value, motive (.boolean value))
    (list : ∀ items, (∀ item ∈ items, motive item) → motive (.list items))
    (object : ∀ fields, (∀ field ∈ fields, motive field.2) → motive (.object fields))
    (value : PlainValue) : motive value := by
  refine @PlainValue.rec motive (fun items => ∀ item ∈ items, motive item)
    (fun fields => ∀ field ∈ fields, motive field.2) (fun field => motive field.2)
    string boolean list object ?_ ?_ ?_ ?_ ?_ value
  · simp
  · intro item items hitem hitems
    exact List.forall_mem_cons.2 ⟨hitem, hitems⟩
  · simp
  · intro field fields hfield hfields
    exact List.forall_mem_cons.2 ⟨hfield, hfields⟩
  · exact fun _ _ hitem => hitem

theorem itemsToData_eq (items : List PlainValue) :
    Json.itemsToData (itemsToJson items) = items.map fun item => item.toJson.toDatum := by
  induction items with
  | nil => rfl
  | cons item items ih => rw [itemsToJson, Json.itemsToData, ih, List.map_cons]

theorem membersToData_eq (fields : List (String × PlainValue)) :
    Json.membersToData (fieldsToJson fields) =
      fields.map fun field => (field.1, field.2.toJson.toDatum) := by
  induction fields with
  | nil => rfl
  | cons field fields ih => rw [fieldsToJson, Json.membersToData, ih, List.map_cons]

/-- A value is data that never had a text. -/
theorem faultless_toDatum (value : PlainValue) : value.toJson.toDatum.Faultless := by
  induction value using byMembers with
  | string text =>
    rw [toJson, Json.toDatum]
    exact .text text
  | boolean value =>
    rw [toJson, Json.toDatum]
    exact .boolean value
  | list items ih =>
    rw [toJson, Json.toDatum, itemsToData_eq]
    refine .sequence _ fun d hd => ?_
    obtain ⟨item, hitem, rfl⟩ := List.mem_map.1 hd
    exact ih item hitem
  | object fields ih =>
    rw [toJson, Json.toDatum, membersToData_eq]
    refine .mapping _ fun member hmember => ?_
    obtain ⟨field, hfield, rfl⟩ := List.mem_map.1 hmember
    exact ih field hfield

variable {α : Type} {reader : Reader α} {argument : String} {value : PlainValue}

theorem readAs_eq_ok {a : α} :
    value.readAs reader argument = .ok a ↔ reader value.toJson.toDatum = .ok a := by
  unfold readAs
  split <;> simp_all

theorem map_readAs {β : Type} (f : α → β) :
    f <$> value.readAs reader argument = value.readAs (fun d => f <$> reader d) argument := by
  simp only [readAs]
  cases reader value.toJson.toDatum with
  | ok a => rfl
  | error fault => cases fault <;> rfl

/-- A value that cannot be read as a record has another shape. -/
theorem readAs_eq_error (h : Readable reader) {error : CompileError} :
    value.readAs reader argument = .error error ↔
      ∃ cause, reader value.toJson.toDatum = .error (.shape cause) ∧
        error = .argumentShape argument cause := by
  have hreadable := h _ value.faultless_toDatum
  unfold readAs
  split
  · rename_i a hread
    simp [hread]
  · rename_i cause hread
    simp [hread, eq_comm]
  · rename_i hread
    exact absurd hread hreadable

end PlainValue

end OpManifest
