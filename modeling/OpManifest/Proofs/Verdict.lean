import OpManifest.Proofs.Description

/-!
# Which documents are published

The compiler asks a document a list of questions, in a fixed order, and reports
the first that it fails (`compile_verdict`).  A computation enforces a list of
checks if it fails with exactly what the first check raises that does not pass
(`Enforces`).  One that is made of two parts enforces the checks of the first and
then those of the second, so the order of the checks is read off the text of the
compiler.
-/

namespace OpManifest

open Data
open GraphQL (Definition Directive Document Operation OperationKind Value)

/-! ## Checks -/

/-- A check, by the errors that it raises.  It passes if it raises none. -/
abbrev Check := CompileError → Prop

/-- The error is what the first check raises that does not pass. -/
inductive FirstRaised : List Check → CompileError → Prop where
  | here (check : Check) (checks : List Check) (error : CompileError) (h : check error) :
    FirstRaised (check :: checks) error
  | later (check : Check) (checks : List Check) (error : CompileError)
    (hpasses : ∀ other, ¬check other) (h : FirstRaised checks error) :
    FirstRaised (check :: checks) error

/-- If a check raises an error, then there is a first one that does. -/
theorem exists_firstRaised {checks : List Check} {check : Check} {error : CompileError}
    (hmem : check ∈ checks) (h : check error) : ∃ first, FirstRaised checks first := by
  induction checks with
  | nil => cases hmem
  | cons head checks ih =>
    by_cases hhead : ∃ first, head first
    · obtain ⟨first, hfirst⟩ := hhead
      exact ⟨first, .here head checks first hfirst⟩
    · rw [not_exists] at hhead
      rcases List.mem_cons.1 hmem with rfl | hmem
      · exact absurd h (hhead error)
      · obtain ⟨first, hfirst⟩ := ih hmem
        exact ⟨first, .later head checks first hhead hfirst⟩

theorem exists_mem_of_firstRaised {checks : List Check} {error : CompileError}
    (h : FirstRaised checks error) : ∃ check ∈ checks, check error := by
  induction h with
  | here check checks error h => exact ⟨check, List.mem_cons_self, h⟩
  | later head checks error _ _ ih =>
    obtain ⟨check, hmem, hraised⟩ := ih
    exact ⟨check, List.mem_cons_of_mem head hmem, hraised⟩

theorem firstRaised_append {front back : List Check} {error : CompileError} :
    FirstRaised (front ++ back) error ↔
      FirstRaised front error ∨
        (∀ check ∈ front, ∀ other, ¬check other) ∧ FirstRaised back error := by
  induction front with
  | nil =>
    constructor
    · intro h
      exact .inr ⟨nofun, h⟩
    · rintro (h | ⟨-, h⟩)
      · cases h
      · exact h
  | cons check front ih =>
    constructor
    · intro h
      cases h with
      | here _ _ _ h => exact .inl (.here check front error h)
      | later _ _ _ hpasses h =>
        rcases ih.1 h with hfront | ⟨hall, hback⟩
        · exact .inl (.later check front error hpasses hfront)
        · exact .inr ⟨List.forall_mem_cons.2 ⟨hpasses, hall⟩, hback⟩
    · rintro (h | ⟨hall, h⟩)
      · cases h with
        | here _ _ _ h => exact .here check _ error h
        | later _ _ _ hpasses h => exact .later check _ error hpasses (ih.2 (.inl h))
      · obtain ⟨hpasses, hall⟩ := List.forall_mem_cons.1 hall
        exact .later check _ error hpasses (ih.2 (.inr ⟨hall, h⟩))

/-- The computation fails exactly with what the first check raises that does not pass. -/
def Enforces {α : Type} (run : Except CompileError α) (checks : List Check) : Prop :=
  ∀ error, run = .error error ↔ FirstRaised checks error

namespace Enforces

variable {α β : Type} {run : Except CompileError α} {checks : List Check} {check : Check}

theorem ok (a : α) : Enforces (.ok a) [] := by
  intro error
  constructor <;> nofun

/-- A check that passes changes nothing. -/
theorem pass (hpasses : ∀ other, ¬check other) (h : Enforces run checks) :
    Enforces run (check :: checks) := by
  intro error
  rw [h error]
  constructor
  · intro h
    exact .later check checks error hpasses h
  · intro h
    cases h with
    | here _ _ _ h => exact absurd h (hpasses error)
    | later _ _ _ _ h => exact h

/-- The first check raises one error, whatever the others say. -/
theorem raise {cause : CompileError} (h : ∀ error, check error ↔ error = cause) :
    Enforces (.error cause : Except CompileError α) (check :: checks) := by
  intro error
  rw [Except.error.injEq]
  constructor
  · rintro rfl
    exact .here check checks cause ((h cause).2 rfl)
  · intro hraised
    cases hraised with
    | here _ _ _ hraised => exact ((h error).1 hraised).symm
    | later _ _ _ hpasses _ => exact absurd ((h cause).2 rfl) (hpasses cause)

theorem single (h : ∀ error, run = .error error ↔ check error) : Enforces run [check] := by
  intro error
  rw [h error]
  constructor
  · intro hraised
    exact .here check [] error hraised
  · intro hraised
    cases hraised with
    | here _ _ _ hraised => exact hraised
    | later _ _ _ _ hraised => cases hraised

/-- After a computation that succeeds all of its checks have passed. -/
theorem passes (h : Enforces run checks) {a : α} (ha : run = .ok a) :
    ∀ check ∈ checks, ∀ error, ¬check error := by
  intro check hmem error hraised
  obtain ⟨first, hfirst⟩ := exists_firstRaised hmem hraised
  rw [← h first, ha] at hfirst
  cases hfirst

/-- A sequence enforces the checks of its parts, one part after the other. -/
theorem bind {next : α → Except CompileError β} {others : List Check} (h : Enforces run checks)
    (hnext : ∀ a, run = .ok a → Enforces (next a) others) :
    Enforces (run >>= next) (checks ++ others) := by
  intro error
  rw [bind_eq_error, firstRaised_append, h error]
  refine or_congr_right ?_
  constructor
  · rintro ⟨a, ha, herror⟩
    exact ⟨h.passes ha, (hnext a ha error).1 herror⟩
  · rintro ⟨hpasses, hraised⟩
    cases hrun : run with
    | ok a => exact ⟨a, rfl, (hnext a hrun error).2 hraised⟩
    | error cause =>
      obtain ⟨check, hmem, hcause⟩ := exists_mem_of_firstRaised ((h cause).1 hrun)
      exact absurd hcause (hpasses check hmem cause)

/-- What is done for each item of a list enforces the checks of the items in their
order. -/
theorem mapM {f : α → Except CompileError β} {checksOf : α → List Check} (as : List α)
    (h : ∀ a, Enforces (f a) (checksOf a)) : Enforces (as.mapM f) (as.flatMap checksOf) := by
  induction as with
  | nil => exact .ok []
  | cons a as ih =>
    rw [List.mapM_cons, List.flatMap_cons]
    refine (h a).bind fun b _ => ?_
    rw [← List.append_nil (as.flatMap checksOf)]
    exact ih.bind fun bs _ => .ok (b :: bs)

end Enforces

/-! ## The checks of a tool -/

section Tool

variable (directive : Directive) (argument : String)

/-- The argument is missing. -/
def missing : Check := fun error =>
  directive.arguments.lookup argument = none ∧ error = .missingArgument "tool" argument

/-- A check of the argument, which passes if there is none. -/
def given (check : Value → Check) : Check := fun error =>
  ∃ literal, directive.arguments.lookup argument = some literal ∧ check literal error

/-- The argument is a literal of another kind. -/
def otherKind (expected : LiteralKind) : Check :=
  given directive argument fun literal error =>
    LiteralKind.ofValue literal ≠ expected ∧
      error = .argumentKind argument expected (.ofValue literal)

/-- There are blanks in the name of the tool. -/
def blankName : Check :=
  given directive "name" fun literal error =>
    ∃ name, literal = .string name ∧ (∃ c ∈ name.toList, Text.isBlank c = true) ∧
      error = .invalidToolName name

/-- A literal that is refused stands in the argument. -/
def refusedLiteral : Check :=
  given directive argument fun literal error =>
    ∃ kind, firstRefused? literal = some kind ∧ error = .unsupportedLiteral kind

/-- The value of the argument has another shape than the record. -/
def otherShape {α : Type} (reader : Reader α) : Check :=
  given directive argument fun literal error =>
    ∃ value cause, PlainValue.decode literal = .ok value ∧
      reader value.toJson.toDatum = .error (.shape cause) ∧ error = .argumentShape argument cause

/-- The checks of a tool in their order. -/
def toolChecks : List Check :=
  [missing directive "name", otherKind directive "name" .string, blankName directive,
    missing directive "description", otherKind directive "description" .string,
    otherKind directive "extraInputs" .list, refusedLiteral directive "extraInputs",
    otherShape directive "extraInputs" extraInputsReader,
    otherKind directive "labels" .object, refusedLiteral directive "labels",
    otherShape directive "labels" labelsReader]

end Tool

section Arguments

variable {directive : Directive} {argument : String} {literal : Value} {check : Value → Check}

theorem not_given_of_none (hlookup : directive.arguments.lookup argument = none)
    (error : CompileError) : ¬given directive argument check error := by
  rintro ⟨literal, hliteral, -⟩
  rw [hlookup] at hliteral
  cases hliteral

theorem given_iff_of_some (hlookup : directive.arguments.lookup argument = some literal)
    (error : CompileError) : given directive argument check error ↔ check literal error := by
  rw [given, hlookup]
  simp only [Option.some.injEq, exists_eq_left']

theorem missing_iff_of_none (hlookup : directive.arguments.lookup argument = none)
    (error : CompileError) :
    missing directive argument error ↔ error = .missingArgument "tool" argument :=
  and_iff_right hlookup

theorem not_missing_of_some (hlookup : directive.arguments.lookup argument = some literal)
    (error : CompileError) : ¬missing directive argument error := by
  rintro ⟨hnone, -⟩
  rw [hlookup] at hnone
  cases hnone

/-- An argument of the expected kind passes the check of its kind. -/
theorem not_otherKind {expected : LiteralKind}
    (hlookup : directive.arguments.lookup argument = some literal)
    (hkind : LiteralKind.ofValue literal = expected) (error : CompileError) :
    ¬otherKind directive argument expected error := by
  rw [otherKind, given_iff_of_some hlookup]
  intro h
  exact h.1 hkind

theorem otherKind_iff {expected : LiteralKind}
    (hlookup : directive.arguments.lookup argument = some literal)
    (hkind : LiteralKind.ofValue literal ≠ expected) (error : CompileError) :
    otherKind directive argument expected error ↔
      error = .argumentKind argument expected (.ofValue literal) := by
  rw [otherKind, given_iff_of_some hlookup]
  exact and_iff_right hkind

/-- The reader raises what it has against the shape of a value. -/
theorem otherShape_iff {α : Type} {reader : Reader α} (hreader : Readable reader)
    {value : PlainValue} (hlookup : directive.arguments.lookup argument = some literal)
    (hdecode : PlainValue.decode literal = .ok value) (error : CompileError) :
    otherShape directive argument reader error ↔ value.readAs reader argument = .error error := by
  rw [otherShape, given_iff_of_some hlookup, hdecode, PlainValue.readAs_eq_error hreader]
  simp only [Except.ok.injEq, exists_and_left, exists_eq_left']

/-- A required text is looked up, then its kind is checked. -/
theorem enforces_requiredString (directive : Directive) (argument : String) :
    Enforces (requiredString directive toolDirective argument)
      [missing directive argument, otherKind directive argument .string] := by
  have hfound := found_findArgument directive argument .string
  unfold requiredString
  generalize findArgument directive argument .string = result at hfound
  cases hfound with
  | absent hlookup => exact .raise (missing_iff_of_none hlookup)
  | otherKind literal hlookup hkind =>
    exact .pass (not_missing_of_some hlookup) (.raise (otherKind_iff hlookup hkind))
  | refused literal kind hlookup hkind hdecode =>
    -- the literal is a text, which is not refused
    cases literal with
    | string text => cases hdecode
    | _ => cases hkind
  | value literal value hlookup hkind hdecode =>
    cases literal with
    | string text =>
      cases hdecode
      exact .pass (not_missing_of_some hlookup) (.pass (not_otherKind hlookup hkind) (.ok text))
    | _ => cases hkind

theorem enforces_checkToolName {name : String}
    (hname : directive.arguments.lookup "name" = some (.string name)) :
    Enforces (checkToolName name) [blankName directive] := by
  refine .single fun error => ?_
  rw [blankName, given_iff_of_some hname, checkToolName]
  simp only [Value.string.injEq, exists_eq_left', ← List.any_eq_true]
  cases name.toList.any Text.isBlank <;> simp [eq_comm]

/-- An optional argument is checked for its kind, for the literals in it and for
its shape, in this order. -/
theorem enforces_typedArgument {α : Type} {reader : Reader α} (hreader : Readable reader)
    (directive : Directive) (argument : String) (expected : LiteralKind) (absent : α) :
    Enforces (typedArgument directive argument expected reader absent)
      [otherKind directive argument expected, refusedLiteral directive argument,
        otherShape directive argument reader] := by
  have hfound := found_findArgument directive argument expected
  unfold typedArgument
  generalize findArgument directive argument expected = result at hfound
  cases hfound with
  | absent hlookup =>
    refine .pass (not_given_of_none hlookup) (.pass (not_given_of_none hlookup) ?_)
    exact .pass (not_given_of_none hlookup) (.ok absent)
  | otherKind literal hlookup hkind => exact .raise (otherKind_iff hlookup hkind)
  | refused literal kind hlookup hkind hdecode =>
    refine .pass (not_otherKind hlookup hkind) (.raise fun error => ?_)
    rw [refusedLiteral, given_iff_of_some hlookup, (PlainValue.decode_eq_error kind).1 hdecode]
    simp only [Option.some.injEq, exists_eq_left']
  | value literal value hlookup hkind hdecode =>
    refine .pass (not_otherKind hlookup hkind) (.pass (fun error hrefused => ?_) ?_)
    · rw [refusedLiteral, given_iff_of_some hlookup,
        PlainValue.exists_decode_eq_ok.1 ⟨value, hdecode⟩] at hrefused
      obtain ⟨kind, hkind, -⟩ := hrefused
      cases hkind
    · exact .single fun error => (otherShape_iff hreader hlookup hdecode error).symm

end Arguments

theorem readable_extraInputsReader : Readable extraInputsReader :=
  ExtraInput.readable_read.list

theorem readable_labelsReader : Readable labelsReader :=
  ToolLabels.readable_read.map some

/-- The checks of a tool are those that its directive is put to, in their order. -/
theorem enforces_compileTool (directive : Directive) :
    Enforces (compileTool directive) (toolChecks directive) := by
  rw [compileTool_eq]
  refine (enforces_requiredString directive "name").bind fun name hname => ?_
  refine (enforces_checkToolName (requiredString_eq_ok.1 hname)).bind fun _ _ => ?_
  refine (enforces_requiredString directive "description").bind fun description _ => ?_
  refine (enforces_typedArgument readable_extraInputsReader directive "extraInputs" .list []).bind
    fun extraInputs _ => ?_
  refine (enforces_typedArgument readable_labelsReader directive "labels" .object none).bind
    fun labels _ => ?_
  exact .ok (⟨name, description, extraInputs, labels⟩ : ToolSpec)

/-! ## The checks of a document -/

section Publication

variable (document : Document)

/-- The operations of a document, in shorthand or with their keywords. -/
def operationsOf : List Operation := document.definitions.filterMap operationOf?

/-- There are several operations. -/
def severalOperations : Check := fun error =>
  1 < (operationsOf document).length ∧ error = .operationCount (operationsOf document).length

/-- There is a subscription. -/
def subscribed : Check := fun error =>
  ∃ operation ∈ operationsOf document, operation.kind = .subscription ∧
    error = .unsupportedOperation "subscription"

/-- There is an operation without a name. -/
def nameless : Check := fun error =>
  ∃ operation ∈ operationsOf document, operation.name = none ∧ error = .anonymousOperation

/-- The checks of a document in their order. -/
def publicationChecks : List Check :=
  [severalOperations document, subscribed document, nameless document] ++
    ((operationsOf document).flatMap toolDirectives).flatMap toolChecks

end Publication

section Document

variable {document : Document} {operation : Operation}

theorem operationsOf_eq_nil :
    operationsOf document = [] ↔
      ∀ definition ∈ document.definitions, definition.isOperation = false := by
  rw [operationsOf, List.filterMap_eq_nil_iff]
  refine forall₂_congr fun definition _ => ?_
  cases definition <;> simp [operationOf?, Definition.isOperation]

theorem enforces_publishedType (h : operationsOf document = [operation]) :
    Enforces (publishedType operation.kind) [subscribed document] := by
  refine .single fun error => ?_
  simp only [subscribed, h, List.mem_singleton, exists_eq_left]
  cases operation.kind <;> simp [publishedType, OperationKind.keyword, eq_comm]

theorem enforces_declaredName (h : operationsOf document = [operation]) :
    Enforces (declaredName operation) [nameless document] := by
  refine .single fun error => ?_
  simp only [nameless, h, List.mem_singleton, exists_eq_left, declaredName]
  cases operation.name <;> simp [eq_comm]

/-- A document with operations is put to its checks. -/
theorem enforces_describeOperation (h : operationsOf document ≠ []) :
    Enforces (describeOperation document) (publicationChecks document) := by
  cases hoperations : operationsOf document with
  | nil => exact absurd hoperations h
  | cons operation others =>
    cases others with
    | nil =>
      refine .pass (fun error hseveral => ?_) ?_
      · rw [severalOperations, hoperations] at hseveral
        exact absurd hseveral.1 (lt_irrefl 1)
      rw [describeOperation_of_operation hoperations, hoperations, List.flatMap_singleton]
      refine (enforces_publishedType hoperations).bind fun type _ => ?_
      refine (enforces_declaredName hoperations).bind fun name _ => ?_
      have htools := Enforces.mapM (toolDirectives operation) enforces_compileTool
      rw [← List.append_nil ((toolDirectives operation).flatMap toolChecks)]
      exact htools.bind fun tools _ => .ok _
    | cons second others =>
      have hmany : 1 < (operationsOf document).length := by
        rw [hoperations, List.length_cons, List.length_cons]
        omega
      have hrun : describeOperation document =
          .error (.operationCount (operationsOf document).length) := by
        unfold describeOperation
        simp only [operationsOf] at hoperations ⊢
        rw [hoperations]
        rfl
      rw [hrun]
      exact .raise fun error => and_iff_right hmany

end Document

/-! ## Verdicts -/

/-- The literal is of the expected kind, no literal in it is refused, and its value
has the shape of the record. -/
structure ValidLiteral {α : Type} (expected : LiteralKind) (reader : Reader α) (literal : Value) :
    Prop where
  kind : LiteralKind.ofValue literal = expected
  accepted : firstRefused? literal = none
  shape : ∀ value, PlainValue.decode literal = .ok value →
    ∃ record, reader value.toJson.toDatum = .ok record

/-- The directive declares a tool. -/
structure ValidTool (directive : Directive) : Prop where
  name : ∃ name, directive.arguments.lookup "name" = some (.string name) ∧
    ∀ c ∈ name.toList, Text.isBlank c = false
  description : ∃ text, directive.arguments.lookup "description" = some (.string text)
  extraInputs : ∀ literal ∈ directive.arguments.lookup "extraInputs",
    ValidLiteral .list extraInputsReader literal
  labels : ∀ literal ∈ directive.arguments.lookup "labels",
    ValidLiteral .object labelsReader literal

theorem exists_gives {α : Type} {directive : Directive} {argument : String} {expected : LiteralKind}
    {reader : Reader α} {absent : α} :
    (∃ a, Gives directive argument expected reader absent a) ↔
      ∀ literal ∈ directive.arguments.lookup argument, ValidLiteral expected reader literal := by
  constructor
  · rintro ⟨a, hgives⟩ literal hliteral
    cases hgives with
    | absent hlookup =>
      rw [hlookup] at hliteral
      cases hliteral
    | given other value _ hlookup hkind hdecode hread =>
      obtain rfl := Option.some.inj (hlookup.symm.trans hliteral)
      refine ⟨hkind, PlainValue.exists_decode_eq_ok.1 ⟨value, hdecode⟩, fun again hagain => ?_⟩
      obtain rfl := Except.ok.inj (hdecode.symm.trans hagain)
      exact ⟨a, hread⟩
  · intro h
    cases hlookup : directive.arguments.lookup argument with
    | none => exact ⟨absent, .absent hlookup⟩
    | some literal =>
      obtain ⟨hkind, haccepted, hshape⟩ := h literal hlookup
      obtain ⟨value, hdecode⟩ := PlainValue.exists_decode_eq_ok.2 haccepted
      obtain ⟨a, hread⟩ := hshape value hdecode
      exact ⟨a, .given literal value a hlookup hkind hdecode hread⟩

theorem exists_declares {directive : Directive} :
    (∃ tool, Declares directive tool) ↔ ValidTool directive := by
  constructor
  · rintro ⟨tool, h⟩
    exact ⟨⟨tool.name, h.name, h.unspaced⟩, ⟨tool.description, h.description⟩,
      exists_gives.1 ⟨_, h.extraInputs⟩, exists_gives.1 ⟨_, h.labels⟩⟩
  · rintro ⟨⟨name, hname, hunspaced⟩, ⟨description, hdescription⟩, hextraInputs, hlabels⟩
    obtain ⟨extraInputs, hextraInputs⟩ := exists_gives.2 hextraInputs
    obtain ⟨labels, hlabels⟩ := exists_gives.2 hlabels
    exact ⟨⟨name, description, extraInputs, labels⟩, hname, hunspaced, hdescription,
      hextraInputs, hlabels⟩

theorem exists_publishedType {kind : OperationKind} :
    (∃ type, publishedType kind = .ok type) ↔ kind ≠ .subscription := by
  cases kind <;> simp [publishedType]

/-- A document has a descriptor if its only operation is a query or mutation with a
name whose directives declare tools. -/
theorem exists_describeOperation {document : Document} :
    (∃ descriptor, describeOperation document = .ok descriptor) ↔
      ∃ operation, document.definitions.filter (·.isOperation) = [.operation operation] ∧
        operation.kind ≠ .subscription ∧ operation.name ≠ none ∧
        ∀ directive ∈ operation.directives, directive.name = "tool" → ValidTool directive := by
  have hvalid (operation : Operation) :
      (∃ tools, (toolDirectives operation).mapM compileTool = .ok tools) ↔
        ∀ directive ∈ operation.directives, directive.name = "tool" → ValidTool directive := by
    rw [exists_mapM_eq_ok]
    simp only [toolDirectives, List.mem_filter, decide_eq_true_eq, and_imp, compileTool_eq_ok,
      exists_declares]
    rfl
  constructor
  · rintro ⟨descriptor, h⟩
    obtain ⟨operation, type, name, tools, hoperations, htype, hname, htools, -⟩ :=
      describeOperation_iff.1 h
    have hnamed : operation.name ≠ none := Option.ne_none_iff_exists'.2 ⟨name, hname⟩
    exact ⟨operation, (filterMap_operationOf?_eq_named hnamed).1 hoperations,
      exists_publishedType.1 ⟨type, htype⟩, hnamed, (hvalid operation).1 ⟨tools, htools⟩⟩
  · rintro ⟨operation, hoperation, hkind, hnamed, htools⟩
    obtain ⟨type, htype⟩ := exists_publishedType.2 hkind
    obtain ⟨name, hname⟩ := Option.ne_none_iff_exists'.1 hnamed
    obtain ⟨tools, htools⟩ := (hvalid operation).2 htools
    exact ⟨_, describeOperation_iff.2 ⟨operation, type, name, tools,
      (filterMap_operationOf?_eq_named hnamed).2 hoperation, htype, hname, htools, rfl⟩⟩

/-- A document without operations passes all checks. -/
theorem enforces_none {document : Document} (h : operationsOf document = []) :
    Enforces (.ok none : Except CompileError (Option OperationDescriptor))
      (publicationChecks document) := by
  have hchecks : publicationChecks document =
      [severalOperations document, subscribed document, nameless document] := by
    rw [publicationChecks, h]
    rfl
  rw [hchecks]
  refine .pass (fun error hseveral => ?_) (.pass (fun error hsubscribed => ?_)
    (.pass (fun error hnameless => ?_) (.ok none)))
  · rw [severalOperations, h] at hseveral
    exact absurd hseveral.1 (by decide)
  · obtain ⟨operation, hoperation, -⟩ := hsubscribed
    rw [h] at hoperation
    cases hoperation
  · obtain ⟨operation, hoperation, -⟩ := hnameless
    rw [h] at hoperation
    cases hoperation

theorem compile_of_parse {source : String} {document : Document}
    (h : Document.parse source = .ok document) :
    compile source = if operationsOf document = [] then .ok none
      else some <$> describeOperation document := by
  have hany : document.definitions.any (·.isOperation) = true ↔ operationsOf document ≠ [] := by
    rw [ne_eq, operationsOf_eq_nil, List.any_eq_true]
    simp
  unfold compile
  rw [h]
  simp only [hany, ite_not]

/-- A source is put to the checks of its document. -/
theorem enforces_compile {source : String} {document : Document}
    (hparse : Document.parse source = .ok document) :
    Enforces (compile source) (publicationChecks document) := by
  intro error
  rw [compile_of_parse hparse]
  split
  · rename_i hnone
    exact enforces_none hnone error
  · rename_i hsome
    rw [map_eq_error]
    exact enforces_describeOperation hsome error

/-- **Verdicts.**  A document without operations is passed over.  Any other is
published exactly if its only operation is a query or mutation with a name whose
directives declare tools.  If it is not, then the error is that of the first check
that it does not pass. -/
theorem compile_verdict {source : String} {document : Document}
    (hparse : Document.parse source = .ok document) :
    (compile source = .ok none ↔
        ∀ definition ∈ document.definitions, definition.isOperation = false) ∧
      ((∃ descriptor, compile source = .ok (some descriptor)) ↔
        ∃ operation, document.definitions.filter (·.isOperation) = [.operation operation] ∧
          operation.kind ≠ .subscription ∧ operation.name ≠ none ∧
          ∀ directive ∈ operation.directives, directive.name = "tool" → ValidTool directive) ∧
      ∀ error, compile source = .error error ↔ FirstRaised (publicationChecks document) error := by
  refine and_assoc.1 ⟨?_, enforces_compile hparse⟩
  rw [← operationsOf_eq_nil, ← exists_describeOperation, compile_of_parse hparse]
  by_cases hoperations : operationsOf document = []
  · rw [if_pos hoperations]
    refine ⟨?_, ?_⟩
    · exact ⟨fun _ => hoperations, fun _ => rfl⟩
    · refine ⟨nofun, ?_⟩
      rintro ⟨descriptor, h⟩
      obtain ⟨operation, -, -, -, hoperation, -⟩ := describeOperation_iff.1 h
      rw [operationsOf, hoperation] at hoperations
      cases hoperations
  · rw [if_neg hoperations]
    refine ⟨?_, ?_⟩
    · refine ⟨fun h => ?_, fun h => absurd h hoperations⟩
      cases hdescribe : describeOperation document <;> rw [hdescribe] at h <;> cases h
    · cases describeOperation document <;> simp

/-- A source whose operation has a name with a blank in it and no description, and
another tool that has no name at all. -/
def faultySource : String :=
  "fragment F on T \x7b a \x7d " ++
    "mutation M @tool(name: \"x y\", labels: 1) @tool(labels: []) \x7b a \x7d"

/-- The blank is found before all other faults. -/
theorem compile_verdict_faultySource :
    ∃ document, Document.parse faultySource = .ok document ∧
      FirstRaised (publicationChecks document) (.invalidToolName "x y") := by
  have hparses : (Document.parse faultySource).toOption.any (fun _ => true) = true := by
    decide +kernel
  have hfails : (match compile faultySource with
      | .error (.invalidToolName name) => decide (name = "x y")
      | _ => false) = true := by
    decide +kernel
  obtain ⟨document, hparse, -⟩ := exists_ok_of_any hparses
  refine ⟨document, hparse, ((compile_verdict hparse).2.2 _).1 ?_⟩
  split at hfails
  · rename_i name hcompile
    rw [hcompile, of_decide_eq_true hfails]
  · cases hfails

end OpManifest
