import Mathlib.Data.List.Induction
import OpManifest.Proofs.Argument
import OpManifest.Proofs.Canonical

/-!
# What a descriptor says

A descriptor speaks for the one operation of its document
(`describes_of_describeOperation`).

* The type of a variable is the named type of its last definition
  (`getElem?_typesOf`).
* There is a tool for each directive `@tool` on the operation, in their order, and
  what it says stands in the first argument of each name (`Declares`,
  `compileTool_eq_ok`).
* The id is a text of sixty-four lowercase hexadecimal digits.

Directives of the same names that stand elsewhere are not heard.
-/

namespace OpManifest

open Data
open GraphQL (Definition Directive Document Operation Selection TypeRef Value VariableDefinition)

/-! ## Digests -/

namespace Digest

/-- The digits that a digest is written with. -/
def lowercaseDigits : List Char := "0123456789abcdef".toList

theorem hexDigit_mem (n : Nat) : hexDigit n ∈ lowercaseDigits := by
  have hdigits : ∀ m < 16, Nat.digitChar m ∈ lowercaseDigits := by decide
  exact hdigits (n % 16) (Nat.mod_lt n (by decide))

theorem mem_of_mem_hex {bytes : List UInt8} {c : Char} (h : c ∈ (hex bytes).toList) :
    c ∈ lowercaseDigits := by
  rw [hex, String.toList_ofList, List.mem_flatMap] at h
  obtain ⟨b, -, hc⟩ := h
  rcases List.mem_cons.1 hc with rfl | hc
  · exact hexDigit_mem (b.toNat / 16)
  · obtain rfl := List.mem_singleton.1 hc
    exact hexDigit_mem b.toNat

theorem Sha256.length_digest (message : List UInt8) : (digest message).length = 32 := by
  simp only [digest, List.length_flatMap, bigEndianBytes]
  rfl

theorem length_sha256 (text : String) : (sha256 text).length = 64 := by
  rw [sha256, length_hex, Sha256.length_digest]

end Digest

/-! ## Variables -/

/-- The type is the named type inside any number of list and non-null wrappers. -/
inductive GraphQL.TypeRef.Wraps : TypeRef → String → Prop where
  | named (name : String) : Wraps (.named name) name
  | list (item : TypeRef) (name : String) (h : item.Wraps name) : Wraps (.list item) name
  | nonNull (type : TypeRef) (name : String) (h : type.Wraps name) : Wraps (.nonNull type) name

theorem GraphQL.TypeRef.wraps_iff {type : TypeRef} {name : String} :
    type.Wraps name ↔ type.innermost = name := by
  constructor
  · intro h
    induction h with
    | named => rfl
    | list _ _ _ ih | nonNull _ _ _ ih => exact ih
  · rintro rfl
    induction type with
    | named name => exact .named name
    | list item ih => exact .list item _ ih
    | nonNull type ih => exact .nonNull type _ ih

/-- The last definition of the variable wraps the named type. -/
def LastDefined (definitions : List VariableDefinition) (name type : String) : Prop :=
  ∃ front definition back, definitions = front ++ definition :: back ∧ definition.name = name ∧
    definition.type.Wraps type ∧ ∀ later ∈ back, later.name ≠ name

/-- One more definition is the last one of its variable, and changes nothing for
the other variables. -/
theorem lastDefined_append_singleton (definitions : List VariableDefinition)
    (last : VariableDefinition) (name type : String) :
    LastDefined (definitions ++ [last]) name type ↔
      if last.name = name then last.type.Wraps type else LastDefined definitions name type := by
  constructor
  · rintro ⟨front, definition, back, hsplit, hname, htype, hback⟩
    rcases List.eq_nil_or_concat back with rfl | ⟨behind, other, rfl⟩
    · obtain ⟨-, hlast⟩ := List.append_inj' hsplit rfl
      obtain rfl := List.singleton_inj.1 hlast
      rwa [if_pos hname]
    · rw [List.concat_eq_append, ← List.cons_append, ← List.append_assoc] at hsplit
      obtain ⟨hdefinitions, hlast⟩ := List.append_inj' hsplit rfl
      obtain rfl := List.singleton_inj.1 hlast
      rw [if_neg (hback last (by simp))]
      exact ⟨front, definition, behind, hdefinitions, hname, htype,
        fun later hlater => hback later (by simp [hlater])⟩
  · intro h
    split at h
    · rename_i hname
      exact ⟨definitions, last, [], rfl, hname, h, by simp⟩
    · rename_i hname
      obtain ⟨front, definition, back, rfl, hdefinition, htype, hback⟩ := h
      refine ⟨front, definition, back ++ [last], by simp, hdefinition, htype, ?_⟩
      intro later hlater
      rcases List.mem_append.1 hlater with hlater | hlater
      · exact hback later hlater
      · rwa [List.mem_singleton.1 hlater]

/-- The type of a variable is that of its last definition. -/
theorem getElem?_typesOf (definitions : List VariableDefinition) (name type : String) :
    (typesOf definitions)[name]? = some type ↔ LastDefined definitions name type := by
  unfold typesOf
  induction definitions using List.reverseRecOn with
  | nil => simp [LastDefined]
  | append_singleton definitions last ih =>
    rw [lastDefined_append_singleton, List.map_append, Std.ExtTreeMap.ofList_eq_insertMany_empty,
      Std.ExtTreeMap.insertMany_append, ← Std.ExtTreeMap.ofList_eq_insertMany_empty]
    simp only [List.map_singleton, Std.ExtTreeMap.insertMany_list_singleton,
      Std.ExtTreeMap.getElem?_insert, Std.LawfulEqCmp.compare_eq_iff_eq]
    split
    · rw [TypeRef.wraps_iff, Option.some.injEq]
    · exact ih

theorem mem_typesOf {definitions : List VariableDefinition} {name : String} :
    name ∈ typesOf definitions ↔ ∃ definition ∈ definitions, definition.name = name := by
  rw [typesOf, Std.ExtTreeMap.mem_ofList, List.map_map, List.contains_iff_mem, List.mem_map]
  rfl

/-! ## Tools -/

/-- An optional argument that is read as a record. -/
def typedArgument {α : Type} (directive : Directive) (argument : String) (expected : LiteralKind)
    (reader : Reader α) (absent : α) : Except CompileError α := do
  match ← findArgument directive argument expected with
  | some value => value.readAs reader argument
  | none => return absent

/-- The text can be the name of a tool. -/
def checkToolName (name : String) : Except CompileError Unit :=
  if name.toList.any Text.isBlank then .error (.invalidToolName name) else .ok ()

theorem checkToolName_eq_ok {name : String} :
    checkToolName name = .ok () ↔ ∀ c ∈ name.toList, Text.isBlank c = false := by
  have hany : name.toList.any Text.isBlank = false ↔ ∀ c ∈ name.toList, Text.isBlank c = false := by
    simp only [List.any_eq_false, Bool.not_eq_true]
  rw [← hany, checkToolName]
  cases name.toList.any Text.isBlank <;> simp

/-- How the extra inputs of a tool are read. -/
def extraInputsReader : Reader (List ExtraInput) := Reader.list (ExtraInput.read .memory)

/-- How the labels of a tool are read. -/
def labelsReader : Reader (Option ToolLabels) := fun d => some <$> ToolLabels.read .memory d

theorem readAs_labelsReader (value : PlainValue) :
    value.readAs labelsReader "labels" = some <$> value.readAs (ToolLabels.read .memory) "labels" :=
  (PlainValue.map_readAs some).symm

/-- A tool is compiled in five steps, in the order of its checks. -/
theorem compileTool_eq (directive : Directive) :
    compileTool directive = (do
      let name ← requiredString directive toolDirective "name"
      checkToolName name
      let description ← requiredString directive toolDirective "description"
      let extraInputs ← typedArgument directive "extraInputs" .list extraInputsReader []
      let labels ← typedArgument directive "labels" .object labelsReader none
      return { name, description, extraInputs, labels }) := by
  unfold compileTool checkToolName
  refine bind_congr fun name => ?_
  cases name.toList.any Text.isBlank with
  | true => rfl
  | false =>
    refine bind_congr fun description => ?_
    simp only [typedArgument, bind_assoc, readAs_labelsReader]
    refine bind_congr fun inputs => ?_
    cases inputs <;>
    · refine bind_congr fun extraInputs => bind_congr fun labels => ?_
      cases labels <;> rfl

/-- What an optional argument gives: what is read from the first argument with its
name, whose literal is of the expected kind, or the value for its absence. -/
inductive Gives {α : Type} (directive : Directive) (argument : String) (expected : LiteralKind)
    (reader : Reader α) (absent : α) : α → Prop where
  | absent (hlookup : directive.arguments.lookup argument = none) :
    Gives directive argument expected reader absent absent
  | given (literal : Value) (value : PlainValue) (a : α)
    (hlookup : directive.arguments.lookup argument = some literal)
    (hkind : LiteralKind.ofValue literal = expected)
    (hdecode : PlainValue.decode literal = .ok value)
    (hread : reader value.toJson.toDatum = .ok a) :
    Gives directive argument expected reader absent a

theorem typedArgument_eq_ok {α : Type} {directive : Directive} {argument : String}
    {expected : LiteralKind} {reader : Reader α} {absent a : α} :
    typedArgument directive argument expected reader absent = .ok a ↔
      Gives directive argument expected reader absent a := by
  constructor
  · intro h
    have hfound := found_findArgument directive argument expected
    unfold typedArgument at h
    generalize findArgument directive argument expected = result at h hfound
    cases hfound with
    | absent hlookup =>
      obtain rfl := Except.ok.inj h
      exact .absent hlookup
    | value literal value hlookup hkind hdecode =>
      exact .given literal value a hlookup hkind hdecode (PlainValue.readAs_eq_ok.1 h)
    | otherKind | refused => cases h
  · intro h
    unfold typedArgument findArgument
    cases h with
    | absent hlookup => simp [hlookup, bind, Except.bind, pure, Except.pure]
    | given literal value _ hlookup hkind hdecode hread =>
      simp [hlookup, hkind, hdecode, bind, Except.bind, PlainValue.readAs_eq_ok.2 hread]

/-- The directive declares the tool. -/
structure Declares (directive : Directive) (tool : ToolSpec) : Prop where
  name : directive.arguments.lookup "name" = some (.string tool.name)
  unspaced : ∀ c ∈ tool.name.toList, Text.isBlank c = false
  description : directive.arguments.lookup "description" = some (.string tool.description)
  extraInputs : Gives directive "extraInputs" .list extraInputsReader [] tool.extraInputs
  labels : Gives directive "labels" .object labelsReader none tool.labels

/-- A directive is compiled into the tool that it declares. -/
theorem compileTool_eq_ok {directive : Directive} {tool : ToolSpec} :
    compileTool directive = .ok tool ↔ Declares directive tool := by
  rw [compileTool_eq]
  constructor
  · intro h
    obtain ⟨name, hname, h⟩ := bind_eq_ok.1 h
    obtain ⟨⟨⟩, hunspaced, h⟩ := bind_eq_ok.1 h
    obtain ⟨description, hdescription, h⟩ := bind_eq_ok.1 h
    obtain ⟨extraInputs, hextraInputs, h⟩ := bind_eq_ok.1 h
    obtain ⟨labels, hlabels, h⟩ := bind_eq_ok.1 h
    obtain rfl := Except.ok.inj h
    exact ⟨requiredString_eq_ok.1 hname, checkToolName_eq_ok.1 hunspaced,
      requiredString_eq_ok.1 hdescription, typedArgument_eq_ok.1 hextraInputs,
      typedArgument_eq_ok.1 hlabels⟩
  · rintro ⟨hname, hunspaced, hdescription, hextraInputs, hlabels⟩
    refine bind_eq_ok.2 ⟨tool.name, requiredString_eq_ok.2 hname, ?_⟩
    refine bind_eq_ok.2 ⟨(), checkToolName_eq_ok.2 hunspaced, ?_⟩
    refine bind_eq_ok.2 ⟨tool.description, requiredString_eq_ok.2 hdescription, ?_⟩
    refine bind_eq_ok.2 ⟨tool.extraInputs, typedArgument_eq_ok.2 hextraInputs, ?_⟩
    exact bind_eq_ok.2 ⟨tool.labels, typedArgument_eq_ok.2 hlabels, rfl⟩

/-! ## Operations -/

/-- The definitions that are operations are those from which one is taken. -/
theorem map_operationOf? (definitions : List Definition) :
    (definitions.filter (·.isOperation)).map operationOf? =
      (definitions.filterMap operationOf?).map some := by
  induction definitions with
  | nil => rfl
  | cons definition definitions ih =>
    cases definition with
    | shorthand | operation =>
      rw [List.filter_cons_of_pos rfl, List.map_cons, ih]
      rfl
    | fragment => exact ih

/-- A definition is the only operation if the operation taken from it is the only one. -/
theorem filterMap_operationOf?_eq_singleton {definitions : List Definition}
    {operation : Operation} :
    definitions.filterMap operationOf? = [operation] ↔
      ∃ definition, definitions.filter (·.isOperation) = [definition] ∧
        operationOf? definition = some operation := by
  have hmap := map_operationOf? definitions
  constructor
  · intro h
    rw [h] at hmap
    obtain ⟨definition, hfilter, hdefinition⟩ := List.map_eq_singleton_iff.1 hmap
    exact ⟨definition, hfilter, hdefinition⟩
  · rintro ⟨definition, hfilter, hdefinition⟩
    rw [hfilter, List.map_singleton, hdefinition] at hmap
    obtain ⟨other, hother, hsame⟩ := List.map_eq_singleton_iff.1 hmap.symm
    rw [hother, Option.some.inj hsame]

/-- The only operation of a document is written with its keyword if it has a name. -/
theorem filterMap_operationOf?_eq_named {definitions : List Definition} {operation : Operation}
    (hname : operation.name ≠ none) :
    definitions.filterMap operationOf? = [operation] ↔
      definitions.filter (·.isOperation) = [.operation operation] := by
  rw [filterMap_operationOf?_eq_singleton]
  constructor
  · rintro ⟨definition, hfilter, hdefinition⟩
    cases definition with
    | shorthand selections =>
      obtain rfl := Option.some.inj hdefinition
      exact absurd rfl hname
    | operation other =>
      obtain rfl := Option.some.inj hdefinition
      exact hfilter
    | fragment => cases hdefinition
  · intro hfilter
    exact ⟨.operation operation, hfilter, rfl⟩

/-- What a descriptor says of the operation that it describes. -/
structure OperationDescriptor.Describes (descriptor : OperationDescriptor) (operation : Operation) :
    Prop where
  /-- The variables are those that the operation declares. -/
  declared : ∀ name, name ∈ descriptor.variableTypes ↔
    ∃ definition ∈ operation.variableDefinitions, definition.name = name
  /-- Of the definitions of one variable the last counts, whatever wraps its type. -/
  variableTypes : ∀ name type, descriptor.variableTypes[name]? = some type ↔
    LastDefined operation.variableDefinitions name type
  prefetch : descriptor.prefetch = true ↔
    ∃ directive ∈ operation.directives, directive.name = "prefetch"
  prefetchId : descriptor.prefetchId = if descriptor.prefetch then some prefetchSlot else none
  /-- There is one tool for each directive that declares one, in their order. -/
  tools : List.Forall₂ Declares (operation.directives.filter (·.name = "tool")) descriptor.tools
  id : descriptor.id = Digest.hex (Digest.Sha256.digest descriptor.body.toUTF8.toList)
  length_id : descriptor.id.length = 64
  lowercase : ∀ c ∈ descriptor.id.toList, c ∈ "0123456789abcdef".toList

theorem describes_descriptorOf {document : Document} {operation : Operation} {type : OperationType}
    {name : String} {tools : List ToolSpec}
    (htools : (toolDirectives operation).mapM compileTool = .ok tools) :
    (descriptorOf document operation type name tools).Describes operation where
  declared _ := mem_typesOf
  variableTypes := getElem?_typesOf operation.variableDefinitions
  prefetch := by
    show operation.directives.any (·.name = prefetchDirective) = true ↔ _
    simp only [List.any_eq_true, decide_eq_true_eq]
    rfl
  prefetchId := rfl
  tools := (mapM_eq_ok.1 htools).imp fun _ _ => compileTool_eq_ok.1
  id := rfl
  length_id := Digest.length_sha256 _
  lowercase _ := Digest.mem_of_mem_hex

/-- **What a descriptor says.**  It describes the only operation of its document,
and what it says of tools and prefetching stands in the directives of this
operation: a document with another operation that has the same directives says
the same of both, whatever its variables, its selections and its fragments are. -/
theorem describes_of_describeOperation {document : Document} {descriptor : OperationDescriptor}
    (h : describeOperation document = .ok descriptor) :
    ∃ operation, document.definitions.filter (·.isOperation) = [.operation operation] ∧
      descriptor.Describes operation ∧
      ∀ (other : Document) (variableDefinitions : List VariableDefinition)
        (selections : List Selection), other.definitions.filter (·.isOperation) =
          [.operation { operation with variableDefinitions, selections }] →
        ∃ another, describeOperation other = .ok another ∧
          another.prefetch = descriptor.prefetch ∧ another.prefetchId = descriptor.prefetchId ∧
          another.tools = descriptor.tools := by
  obtain ⟨operation, type, name, tools, hoperations, htype, hname, htools, rfl⟩ :=
    describeOperation_iff.1 h
  have hnamed : operation.name ≠ none := Option.ne_none_iff_exists'.2 ⟨name, hname⟩
  refine ⟨operation, (filterMap_operationOf?_eq_named hnamed).1 hoperations,
    describes_descriptorOf htools, fun other variableDefinitions selections hother => ?_⟩
  let heard : Operation := { operation with variableDefinitions, selections }
  have hheard : other.definitions.filterMap operationOf? = [heard] := by
    rw [filterMap_operationOf?_eq_named]
    exacts [hother, hnamed]
  exact ⟨descriptorOf other heard type name tools,
    describeOperation_iff.2 ⟨heard, type, name, tools, hheard, htype, hname, htools, rfl⟩,
    rfl, rfl, rfl⟩

/-- A query that defines a variable twice and declares two tools, one of them with
two names.  On its field and on the fragment the same directives stand. -/
def declaringQuery (selections : List Selection) : Operation :=
  ⟨.query, some "Search",
    [⟨"id", .nonNull (.list (.nonNull (.named "ID"))), none⟩, ⟨"n", .named "Int", none⟩,
      ⟨"id", .list (.named "Key"), none⟩],
    [⟨"tool", [("name", .string "second"), ("description", .string "b"), ("name", .string "c d")]⟩,
      ⟨"tool", [("labels", .object []), ("description", .string "a"), ("name", .string "first")]⟩],
    selections⟩

def declaringDocument : Document :=
  ⟨[.fragment ⟨"Title", "Shop", [⟨"prefetch", []⟩, ⟨"tool", []⟩], []⟩,
    .operation (declaringQuery [.field none "search" [] [⟨"prefetch", []⟩, ⟨"tool", []⟩] []])]⟩

theorem describes_declaringDocument :
    ∃ descriptor, describeOperation declaringDocument = .ok descriptor ∧
      descriptor.variableTypes["id"]? = some "Key" ∧ "n" ∈ descriptor.variableTypes ∧
      descriptor.prefetch = false ∧ descriptor.prefetchId = none ∧
      descriptor.tools = [⟨"second", "b", [], none⟩, ⟨"first", "a", [], some ⟨none⟩⟩] ∧
      descriptor.id.length = 64 ∧
      ∃ another, describeOperation ⟨[.operation (declaringQuery [])]⟩ = .ok another ∧
        another.tools = descriptor.tools := by
  have hfacts : (describeOperation declaringDocument).toOption.any (fun descriptor =>
      descriptor.tools = [⟨"second", "b", [], none⟩, ⟨"first", "a", [], some ⟨none⟩⟩]) = true := by
    decide +kernel
  obtain ⟨descriptor, hdescribed, htools⟩ := exists_ok_of_any hfacts
  obtain ⟨operation, hoperation, hdescribes, helsewhere⟩ :=
    describes_of_describeOperation hdescribed
  obtain rfl : declaringQuery _ = operation :=
    Definition.operation.inj (List.singleton_inj.1 hoperation)
  have hprefetch : descriptor.prefetch = false := by
    rw [← Bool.not_eq_true, hdescribes.prefetch]
    decide
  obtain ⟨another, hanother, -, -, hsame⟩ := helsewhere ⟨[.operation (declaringQuery [])]⟩ _ [] rfl
  refine ⟨descriptor, hdescribed, ?_, ?_, hprefetch, ?_, of_decide_eq_true htools,
    hdescribes.length_id, another, hanother, hsame⟩
  · rw [hdescribes.variableTypes]
    exact ⟨[⟨"id", .nonNull (.list (.nonNull (.named "ID"))), none⟩, ⟨"n", .named "Int", none⟩],
      ⟨"id", .list (.named "Key"), none⟩, [], rfl, rfl, .list _ _ (.named "Key"), by simp⟩
  · exact (hdescribes.declared "n").2 ⟨⟨"n", .named "Int", none⟩, by simp [declaringQuery], rfl⟩
  · rw [hdescribes.prefetchId, hprefetch]
    rfl

end OpManifest
