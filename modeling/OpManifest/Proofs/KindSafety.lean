import OpManifest.Proofs.Argument

/-!
# Kinds of arguments

Three things have a kind where an argument is looked up: the literal as it is
written, the value that is decoded from it, and what the search expects.  The
first two always agree (`PlainValue.kind_of_decode`) and the search compares the
first with the third, so whatever it finds is of the kind that was asked for
(`argument_kindSafe`).
-/

namespace OpManifest

open GraphQL (Value Directive)

/-- A value is of the kind of the literal that it was decoded from. -/
theorem PlainValue.kind_of_decode {literal : Value} {value : PlainValue}
    (h : decode literal = .ok value) : value.kind = LiteralKind.ofValue literal := by
  cases literal with
  | string | boolean =>
    obtain rfl := Except.ok.inj h
    rfl
  | list items =>
    obtain ⟨values, -, h⟩ := bind_eq_ok.1 h
    obtain rfl := Except.ok.inj h
    rfl
  | object fields =>
    obtain ⟨pairs, -, h⟩ := bind_eq_ok.1 h
    obtain rfl := Except.ok.inj h
    rfl
  | reference | int | float | null | symbol => cases h

/-- No value is of a kind that is refused. -/
theorem PlainValue.isRefused_kind (value : PlainValue) : value.kind.isRefused = false := by
  cases value <;> rfl

/-- What the literal of an argument answers to the search for it: its own kind
counts first, then the literals in it, and only then there is a value. -/
inductive Answers (name : String) (expected : LiteralKind) (literal : Value) :
    Except CompileError (Option PlainValue) → Prop where
  | otherKind (hkind : LiteralKind.ofValue literal ≠ expected) :
    Answers name expected literal (.error (.argumentKind name expected (.ofValue literal)))
  | refused (kind : LiteralKind) (hkind : LiteralKind.ofValue literal = expected)
    (hfirst : firstRefused? literal = some kind) :
    Answers name expected literal (.error (.unsupportedLiteral kind))
  | value (value : PlainValue) (hkind : LiteralKind.ofValue literal = expected)
    (hnone : firstRefused? literal = none) (hdecode : PlainValue.decode literal = .ok value) :
    Answers name expected literal (.ok (some value))

/-- What a search for an argument keeps to. -/
structure KindSafe (directive : Directive) (name : String) (expected : LiteralKind) : Prop where
  /-- Nothing is found exactly if no argument has the name. -/
  absent : findArgument directive name expected = .ok none ↔
    ∀ argument ∈ directive.arguments, argument.1 ≠ name
  /-- Of the arguments with the name the first one answers, whatever the others are. -/
  first : ∀ front literal back, directive.arguments = front ++ (name, literal) :: back →
    (∀ argument ∈ front, argument.1 ≠ name) →
      Answers name expected literal (findArgument directive name expected)
  /-- What is found is of the expected kind. -/
  kind : ∀ value, findArgument directive name expected = .ok (some value) →
    value.kind = expected
  /-- If a kind is expected that is refused, no value is found. -/
  unsupported : expected.isRefused = true →
    ∀ value, findArgument directive name expected ≠ .ok (some value)

theorem lookup_arguments_eq_none {directive : Directive} {name : String} :
    directive.arguments.lookup name = none ↔
      ∀ argument ∈ directive.arguments, argument.1 ≠ name := by
  rw [List.lookup_eq_none_iff]
  exact forall₂_congr fun argument _ => by rw [bne_iff_ne, ne_comm]

theorem lookup_arguments_of_first {directive : Directive} {name : String} {literal : Value}
    {front back : List (String × Value)}
    (h : directive.arguments = front ++ (name, literal) :: back)
    (hfront : ∀ argument ∈ front, argument.1 ≠ name) :
    directive.arguments.lookup name = some literal := by
  rw [List.lookup_eq_some_iff]
  exact ⟨front, back, h, fun argument hargument =>
    bne_iff_ne.2 (hfront argument hargument).symm⟩

theorem findArgument_eq_none {directive : Directive} {name : String} {expected : LiteralKind} :
    findArgument directive name expected = .ok none ↔ directive.arguments.lookup name = none := by
  have hfound := found_findArgument directive name expected
  generalize findArgument directive name expected = result at hfound
  cases hfound with
  | absent hlookup => exact ⟨fun _ => hlookup, fun _ => rfl⟩
  | otherKind _ hlookup | refused _ _ hlookup | value _ _ hlookup =>
    rw [hlookup]
    exact ⟨nofun, nofun⟩

/-- The argument that is found answers the search. -/
theorem answers_of_lookup {directive : Directive} {name : String} {literal : Value}
    (h : directive.arguments.lookup name = some literal) (expected : LiteralKind) :
    Answers name expected literal (findArgument directive name expected) := by
  have hfound := found_findArgument directive name expected
  generalize findArgument directive name expected = result at hfound
  cases hfound with
  | absent hlookup => cases h.symm.trans hlookup
  | otherKind other hlookup hkind =>
    obtain rfl := Option.some.inj (h.symm.trans hlookup)
    exact .otherKind hkind
  | refused other kind hlookup hkind hdecode =>
    obtain rfl := Option.some.inj (h.symm.trans hlookup)
    exact .refused kind hkind ((PlainValue.decode_eq_error kind).1 hdecode)
  | value other value hlookup hkind hdecode =>
    obtain rfl := Option.some.inj (h.symm.trans hlookup)
    exact .value value hkind (PlainValue.exists_decode_eq_ok.1 ⟨value, hdecode⟩) hdecode

theorem kind_of_findArgument {directive : Directive} {name : String} {expected : LiteralKind}
    {value : PlainValue} (h : findArgument directive name expected = .ok (some value)) :
    value.kind = expected := by
  have hfound := found_findArgument directive name expected
  rw [h] at hfound
  cases hfound with
  | value literal _ _ hkind hdecode => rw [PlainValue.kind_of_decode hdecode, hkind]

/-- A text that is required, where `otherwise` answers for a value that is found
and is no text. -/
def requiredStringOr (otherwise : PlainValue → Except CompileError String)
    (directive : Directive) (directiveName argument : String) : Except CompileError String := do
  match ← findArgument directive argument .string with
  | some (.string text) => return text
  | some other => otherwise other
  | none => throw (.missingArgument directiveName argument)

/-- Nobody is ever asked about a value that is no text. -/
theorem requiredString_eq_or (otherwise : PlainValue → Except CompileError String)
    (directive : Directive) (directiveName argument : String) :
    requiredString directive directiveName argument =
      requiredStringOr otherwise directive directiveName argument := by
  unfold requiredString requiredStringOr
  cases hresult : findArgument directive argument .string with
  | error error => rfl
  | ok found =>
    cases found with
    | none => rfl
    | some value =>
      have hkind := kind_of_findArgument hresult
      cases value with
      | string text => rfl
      | boolean | list | object => cases hkind

/-- **Looking up arguments is safe.**  The first argument with the name decides: its
kind is compared before anything in it is read, then the first literal in it that is
refused counts, and what is found is of the expected kind.  Hence it makes no
difference what is done with a value that was found for a text and is none. -/
theorem argument_kindSafe (directive : Directive) (name : String) (expected : LiteralKind) :
    KindSafe directive name expected ∧
      ∀ (directiveName : String) (otherwise : PlainValue → Except CompileError String),
        requiredString directive directiveName name =
          requiredStringOr otherwise directive directiveName name := by
  refine ⟨⟨?_, fun front literal back h hfront => ?_, fun value => kind_of_findArgument, ?_⟩,
    fun directiveName otherwise => requiredString_eq_or otherwise directive directiveName name⟩
  · rw [findArgument_eq_none, lookup_arguments_eq_none]
  · exact answers_of_lookup (lookup_arguments_of_first h hfront) expected
  · intro hrefused value h
    have hkind := value.isRefused_kind
    rw [kind_of_findArgument h, hrefused] at hkind
    cases hkind

/-- A directive with an argument that is given twice, and one in which an enum value
stands. -/
def doubtfulDirective : Directive :=
  ⟨"tool", [("name", .int 1), ("name", .string "N"), ("tags", .list [.string "t", .symbol "E"])]⟩

theorem argument_kindSafe_doubtfulDirective :
    findArgument doubtfulDirective "name" .string = .error (.argumentKind "name" .string .int) ∧
      findArgument doubtfulDirective "tags" .list = .error (.unsupportedLiteral .symbol) ∧
      findArgument doubtfulDirective "labels" .object = .ok none ∧
      ∀ value, findArgument doubtfulDirective "name" .int ≠ .ok (some value) := by
  refine ⟨?_, ?_, ?_, (argument_kindSafe doubtfulDirective "name" .int).1.unsupported rfl⟩
  · have hanswers := (argument_kindSafe doubtfulDirective "name" .string).1.first
      [] (.int 1) _ rfl nofun
    generalize findArgument doubtfulDirective "name" .string = result at hanswers
    cases hanswers with
    | otherKind => rfl
    | refused _ hkind | value _ hkind => cases hkind
  · have hanswers := (argument_kindSafe doubtfulDirective "tags" .list).1.first
      [("name", .int 1), ("name", .string "N")] (.list [.string "t", .symbol "E"]) [] rfl
      (by decide)
    generalize findArgument doubtfulDirective "tags" .list = result at hanswers
    cases hanswers with
    | otherKind hkind => exact absurd rfl hkind
    | refused kind _ hfirst =>
      obtain rfl : LiteralKind.symbol = kind := Option.some.inj hfirst
      rfl
    | value _ _ hnone => cases hnone
  · exact (argument_kindSafe doubtfulDirective "labels" .object).1.absent.2 (by decide)

end OpManifest
