import OpManifest.Proofs.Argument
import OpManifest.Proofs.GraphQL.Parsed

/-!
# Literals as JSON

What becomes of the literal of an argument on its way to JSON (`decode_lossless`).

* It is decoded unless a literal of a kind that is refused stands in it.  Of several
  the first one is reported (`FirstRefused`).  The fields of an object are searched in
  the order of their names, which is the order that the parser leaves them in
  (`ordered_of_parse`).
* What is decoded keeps its structure, its texts and its keys (`Renders`), so that no
  two literals become the same JSON (`Renders.injective`).
-/

namespace OpManifest

open GraphQL (Directive Document Operation SortedFields Value)

/-! ## The order of fields -/

/-- In every object of the value the fields are in the order of their names, and no
two have one name. -/
inductive GraphQL.Value.Ordered : Value → Prop where
  | leaf {leaf : Value} (hlist : LiteralKind.ofValue leaf ≠ .list)
    (hobject : LiteralKind.ofValue leaf ≠ .object) : Ordered leaf
  | list {items : List Value} (hitems : ∀ item ∈ items, item.Ordered) : Ordered (.list items)
  | object {fields : List (String × Value)} (hsorted : SortedFields fields)
    (hfields : ∀ field ∈ fields, field.2.Ordered) : Ordered (.object fields)

theorem GraphQL.Value.Fits.ordered {constant : Bool} {depth : Nat} {literal : Value}
    (h : literal.Fits constant depth) : literal.Ordered := by
  induction h with
  | list _ ih => exact .list ih
  | object hsorted _ _ ih => exact .object hsorted ih
  | reference | int | float | string | boolean | null | symbol => exact .leaf nofun nofun

/-- The parser leaves the fields of all arguments of an operation in order. -/
theorem ordered_of_parse {source : String} {document : Document}
    (h : Document.parse source = .ok document) {operation : Operation}
    (hoperation : .operation operation ∈ document.definitions) {directive : Directive}
    (hdirective : directive ∈ operation.directives) {argument : String × Value}
    (hargument : argument ∈ directive.arguments) : argument.2.Ordered := by
  have hfits := (GraphQL.fits_of_parse h).definitions _ hoperation
  obtain ⟨-, below, -, hvalue⟩ :=
    (hfits.directives directive hdirective).arguments argument hargument
  exact hvalue.ordered

/-- Of two fields in order, the one with the smaller name comes first. -/
theorem lt_of_sortedFields {front back : List (String × Value)} {field : String × Value}
    (h : SortedFields (front ++ field :: back)) :
    (∀ earlier ∈ front, earlier.1 < field.1) ∧ ∀ later ∈ back, field.1 < later.1 := by
  rw [SortedFields, List.pairwise_map] at h
  obtain ⟨-, hback, hfront⟩ := List.pairwise_append.1 h
  exact ⟨fun earlier hearlier =>
      compareOfLessAndEq_eq_lt.1 (hfront earlier hearlier field List.mem_cons_self),
    fun later hlater => compareOfLessAndEq_eq_lt.1 (List.rel_of_pairwise_cons hback hlater)⟩

/-! ## Refused literals -/

/-- No literal of a kind that is refused occurs in the value. -/
def Accepted (literal : Value) : Prop :=
  ∀ leaf ∈ literal.literals, (LiteralKind.ofValue leaf).isRefused = false

theorem firstRefused?_eq_none {literal : Value} :
    firstRefused? literal = none ↔ Accepted literal := by
  rw [firstRefused?, List.find?_eq_none, List.forall_mem_map]
  simp only [Bool.not_eq_true]
  rfl

/-- The kind is that of the first refused literal in the value: in a list in the order
of its items, in an object in the order of the names. -/
inductive FirstRefused : Value → LiteralKind → Prop where
  | leaf {leaf : Value} (h : (LiteralKind.ofValue leaf).isRefused = true) :
    FirstRefused leaf (.ofValue leaf)
  | item {front back : List Value} {item : Value} {kind : LiteralKind}
    (hfront : ∀ earlier ∈ front, Accepted earlier) (h : FirstRefused item kind) :
    FirstRefused (.list (front ++ item :: back)) kind
  | field {fields : List (String × Value)} {name : String} {literal : Value} {kind : LiteralKind}
    (hmem : (name, literal) ∈ fields)
    (hfront : ∀ earlier ∈ fields, earlier.1 < name → Accepted earlier.2)
    (h : FirstRefused literal kind) : FirstRefused (.object fields) kind

theorem firstRefused_leaf {leaf : Value} (hlist : LiteralKind.ofValue leaf ≠ .list)
    (hobject : LiteralKind.ofValue leaf ≠ .object) {kind : LiteralKind} :
    FirstRefused leaf kind ↔
      (LiteralKind.ofValue leaf).isRefused = true ∧ kind = LiteralKind.ofValue leaf := by
  constructor
  · intro h
    cases h with
    | leaf h => exact ⟨h, rfl⟩
    | item => exact absurd rfl hlist
    | field => exact absurd rfl hobject
  · rintro ⟨h, rfl⟩
    exact .leaf h

theorem firstRefused_list {items : List Value} {kind : LiteralKind} :
    FirstRefused (.list items) kind ↔ ∃ front item back, items = front ++ item :: back ∧
      FirstRefused item kind ∧ ∀ earlier ∈ front, Accepted earlier := by
  constructor
  · intro h
    cases h with
    | leaf h => cases h
    | item hfront h => exact ⟨_, _, _, rfl, h, hfront⟩
  · rintro ⟨front, item, back, rfl, h, hfront⟩
    exact .item hfront h

/-- In an object whose fields are in order, the first refused literal is in the first
field that has one. -/
theorem firstRefused_object {fields : List (String × Value)} (hsorted : SortedFields fields)
    {kind : LiteralKind} :
    FirstRefused (.object fields) kind ↔ ∃ front field back, fields = front ++ field :: back ∧
      FirstRefused field.2 kind ∧ ∀ earlier ∈ front, Accepted earlier.2 := by
  constructor
  · intro h
    cases h with
    | leaf h => cases h
    | @field _ name literal _ hmem hfront h =>
      obtain ⟨front, back, rfl⟩ := List.append_of_mem hmem
      have hearlier := (lt_of_sortedFields hsorted).1
      exact ⟨front, (name, literal), back, rfl, h, fun earlier hmem =>
        hfront earlier (List.mem_append_left _ hmem) (hearlier earlier hmem)⟩
  · rintro ⟨front, field, back, rfl, h, hfront⟩
    have hlater := (lt_of_sortedFields hsorted).2
    refine .field (List.mem_append_right _ List.mem_cons_self) (fun earlier hmem hlt => ?_) h
    rcases List.mem_append.1 hmem with hmem | hmem
    · exact hfront earlier hmem
    · rcases List.mem_cons.1 hmem with rfl | hmem
      · exact absurd hlt (String.lt_irrefl _)
      · exact absurd hlt (String.lt_asymm (hlater earlier hmem))

/-- The search finds the first refused literal. -/
theorem firstRefused_iff {literal : Value} (h : literal.Ordered) (kind : LiteralKind) :
    FirstRefused literal kind ↔ firstRefused? literal = some kind := by
  induction h generalizing kind with
  | @leaf leaf hlist hobject =>
    rw [firstRefused_leaf hlist hobject]
    cases leaf with
    | list | object => simp [LiteralKind.ofValue] at hlist hobject
    | reference | int | float | string | boolean | null | symbol =>
      simp [firstRefused?, Value.literals, LiteralKind.ofValue, LiteralKind.isRefused, eq_comm]
  | @list items hitems ih =>
    rw [firstRefused_list, PlainValue.firstRefused?_list, List.findSome?_eq_some_iff]
    simp only [firstRefused?_eq_none]
    refine exists_congr fun front => exists_congr fun item => exists_congr fun back => ?_
    refine and_congr_right fun hsplit => and_congr_left fun _ => ih item ?_ kind
    rw [hsplit]
    exact List.mem_append_right front List.mem_cons_self
  | @object fields hsorted hfields ih =>
    rw [firstRefused_object hsorted, PlainValue.firstRefused?_object, List.findSome?_eq_some_iff]
    simp only [firstRefused?_eq_none]
    refine exists_congr fun front => exists_congr fun field => exists_congr fun back => ?_
    refine and_congr_right fun hsplit => and_congr_left fun _ => ih field ?_ kind
    rw [hsplit]
    exact List.mem_append_right front List.mem_cons_self

/-! ## JSON -/

/-- The literal is written as the JSON. -/
inductive Renders : Value → Json → Prop where
  | string (text : String) : Renders (.string text) (.string text)
  | boolean (value : Bool) : Renders (.boolean value) (.boolean value)
  | list {items : List Value} {rendered : List Json} (h : List.Forall₂ Renders items rendered) :
    Renders (.list items) (.array rendered)
  | object {fields : List (String × Value)} {members : List (String × Json)}
    (hkeys : members.map Prod.fst = fields.map Prod.fst)
    (h : List.Forall₂ Renders (fields.map Prod.snd) (members.map Prod.snd)) :
    Renders (.object fields) (.object members)

namespace PlainValue

theorem itemsToJson_eq (items : List PlainValue) : itemsToJson items = items.map toJson := by
  induction items with
  | nil => rfl
  | cons item items ih => rw [itemsToJson, ih, List.map_cons]

theorem fieldsToJson_eq (fields : List (String × PlainValue)) :
    fieldsToJson fields = fields.map fun field => (field.1, field.2.toJson) := by
  induction fields with
  | nil => rfl
  | cons field fields ih => rw [fieldsToJson, ih, List.map_cons]

theorem decodeNamed_eq_ok {field : String × Value} {pair : String × PlainValue} :
    decodeNamed field = .ok pair ↔ pair.1 = field.1 ∧ decode field.2 = .ok pair.2 := by
  rw [decodeNamed]
  cases decode field.2 <;> simp [Prod.ext_iff, eq_comm]

theorem decode_list_eq_ok {items : List Value} {value : PlainValue} :
    decode (.list items) = .ok value ↔
      ∃ values, List.Forall₂ (fun item value => decode item = .ok value) items values ∧
        .list values = value := by
  rw [decode, decodeItems_eq, bind_eq_ok]
  simp only [mapM_eq_ok, pure, Except.pure, Except.ok.injEq]

theorem decode_object_eq_ok {fields : List (String × Value)} {value : PlainValue} :
    decode (.object fields) = .ok value ↔
      ∃ pairs, List.Forall₂ (fun field pair => decodeNamed field = .ok pair) fields pairs ∧
        .object pairs = value := by
  rw [decode, decodeFields_eq, bind_eq_ok]
  simp only [mapM_eq_ok, pure, Except.pure, Except.ok.injEq]

end PlainValue

theorem renders_toJson {literal : Value} {value : PlainValue}
    (h : PlainValue.decode literal = .ok value) : Renders literal value.toJson := by
  induction literal using Value.byMembers generalizing value with
  | list items ih =>
    obtain ⟨values, hvalues, rfl⟩ := PlainValue.decode_list_eq_ok.1 h
    rw [PlainValue.toJson, PlainValue.itemsToJson_eq]
    refine .list (List.forall₂_map_right_iff.2 ?_)
    exact forall₂_of_mem hvalues fun item hitem value => ih item hitem
  | object fields ih =>
    obtain ⟨pairs, hpairs, rfl⟩ := PlainValue.decode_object_eq_ok.1 h
    rw [PlainValue.toJson, PlainValue.fieldsToJson_eq]
    refine .object ?_ ?_
    · rw [List.map_map]
      exact map_eq_map_of_forall₂ hpairs fun field _ pair hpair =>
        (PlainValue.decodeNamed_eq_ok.1 hpair).1
    · rw [List.map_map, List.forall₂_map_left_iff, List.forall₂_map_right_iff]
      exact forall₂_of_mem hpairs fun field hfield pair hpair =>
        ih field hfield (PlainValue.decodeNamed_eq_ok.1 hpair).2
  | string text =>
    obtain rfl := Except.ok.inj h
    exact .string text
  | boolean value =>
    obtain rfl := Except.ok.inj h
    exact .boolean value
  | reference | int | float | null | symbol => cases h

/-- No two literals are written as the same JSON. -/
theorem Renders.injective {literal other : Value} {json : Json} (h : Renders literal json)
    (hother : Renders other json) : literal = other := by
  induction literal using Value.byMembers generalizing other json with
  | list items ih =>
    cases h with
    | list h =>
      cases hother with
      | list hother => rw [eq_of_forall₂ h hother fun item hitem _ _ => ih item hitem]
  | object fields ih =>
    cases h with
    | object hkeys h =>
      cases hother with
      | object hsame hother =>
        have hvalues := eq_of_forall₂ h hother
          (List.forall_mem_map.2 fun field hfield _ _ => ih field hfield)
        have hfields := List.zip_of_prod (hkeys.symm.trans hsame) hvalues
        rw [hfields, ← List.zip_of_prod rfl rfl]
  | string text =>
    cases h
    cases hother
    rfl
  | boolean value =>
    cases h
    cases hother
    rfl
  | reference | int | float | null | symbol => cases h

/-- **Decoding.**  A literal is decoded exactly if no literal of a refused kind stands
anywhere in it, and else the first of these is reported.  What is decoded is written as
JSON with the same structure, texts and keys, and no two literals become the same. -/
theorem decode_lossless (literal : Value) :
    ((∃ value, PlainValue.decode literal = .ok value) ↔ Accepted literal) ∧
      (literal.Ordered → ∀ kind,
        PlainValue.decode literal = .error kind ↔ FirstRefused literal kind) ∧
      ∀ value, PlainValue.decode literal = .ok value → Renders literal value.toJson ∧
        ∀ other same, PlainValue.decode other = .ok same → same.toJson = value.toJson →
          other = literal := by
  refine ⟨?_, fun hordered kind => ?_, fun value hvalue => ⟨renders_toJson hvalue, ?_⟩⟩
  · rw [PlainValue.exists_decode_eq_ok, firstRefused?_eq_none]
  · rw [PlainValue.decode_eq_error, firstRefused_iff hordered]
  · intro other same hsame hjson
    have hother := renders_toJson hsame
    rw [hjson] at hother
    exact hother.injective (renders_toJson hvalue)

/-- Fields in two of which a refused literal stands. -/
def mixedFields : List (String × Value) :=
  [("a", .list [.string "s", .reference "id"]), ("b", .int 1)]

theorem decode_lossless_mixed :
    (Value.list [.boolean true, .object mixedFields]).Ordered ∧
      PlainValue.decode (.list [.boolean true, .object mixedFields]) = .error .reference := by
  have hinner : (Value.list [.string "s", .reference "id"]).Ordered :=
    .list (List.forall_mem_cons.2
      ⟨.leaf nofun nofun, List.forall_mem_singleton.2 (.leaf nofun nofun)⟩)
  have hfields : (Value.object mixedFields).Ordered :=
    .object (List.pairwise_pair.2 (by decide))
      (List.forall_mem_cons.2 ⟨hinner, List.forall_mem_singleton.2 (.leaf nofun nofun)⟩)
  have hordered : (Value.list [.boolean true, .object mixedFields]).Ordered :=
    .list (List.forall_mem_cons.2 ⟨.leaf nofun nofun, List.forall_mem_singleton.2 hfields⟩)
  refine ⟨hordered, ((decode_lossless _).2.1 hordered .reference).2 ?_⟩
  have hstring : ∀ earlier ∈ [Value.string "s"], Accepted earlier := by
    simp [Accepted, Value.literals, LiteralKind.ofValue, LiteralKind.isRefused]
  have hboolean : ∀ earlier ∈ [Value.boolean true], Accepted earlier := by
    simp [Accepted, Value.literals, LiteralKind.ofValue, LiteralKind.isRefused]
  have hitem : FirstRefused (.list [.string "s", .reference "id"]) .reference :=
    firstRefused_list.2 ⟨[.string "s"], .reference "id", [], rfl, .leaf rfl, hstring⟩
  -- No name comes before the first one.
  have hleast : ∀ name ∈ mixedFields.map Prod.fst, ¬ name < "a" := by decide
  have hfield : FirstRefused (.object mixedFields) .reference :=
    .field List.mem_cons_self (fun earlier hearlier hlt =>
      absurd hlt (hleast earlier.1 (List.mem_map_of_mem hearlier))) hitem
  exact firstRefused_list.2 ⟨[.boolean true], .object mixedFields, [], rfl, hfield, hboolean⟩

end OpManifest
