import OpManifest.Operation.Error

/-!
# Arguments of directives

Looking arguments up by name and reading them.  Only the first argument of a
name counts, and its kind is checked before anything in it is read.
-/

namespace OpManifest

open GraphQL (Value Directive)

/-- The value of the first argument with the name, if it has the expected kind
and is made of accepted literals; none if there is no such argument. -/
def findArgument (directive : Directive) (name : String) (expected : LiteralKind) :
    Except CompileError (Option PlainValue) :=
  match directive.arguments.lookup name with
  | none => .ok none
  | some literal =>
    let actual := LiteralKind.ofValue literal
    if actual ≠ expected then .error (.argumentKind name expected actual)
    else
      match PlainValue.decode literal with
      | .ok value => .ok (some value)
      | .error kind => .error (.unsupportedLiteral kind)

/-- The string that the argument of a directive called `directiveName` has to
give. -/
def requiredString (directive : Directive) (directiveName argument : String) :
    Except CompileError String := do
  match ← findArgument directive argument .string with
  | some (.string text) => return text
  | some other => throw (.argumentKind argument .string other.kind)
  | none => throw (.missingArgument directiveName argument)

/-- The record that the value of an argument gives. -/
def PlainValue.readAs {α : Type} (reader : Data.Reader α) (argument : String)
    (value : PlainValue) : Except CompileError α :=
  match reader value.toJson.toDatum with
  | .ok record => .ok record
  | .error (.shape cause) => .error (.argumentShape argument cause)
  | .error .unreadable => .error (.unsupportedLiteral value.kind)

end OpManifest
