import OpManifest.Data.Datum

/-!
# Records in data

Reading typed records out of self-describing data.  A record is a mapping from
field names, or the sequence of its fields in their order.  The first fault in
the order of the data wins; fields that are missing are found after all others
were read.
-/

namespace OpManifest.Data

/-- Why whole data does not have the shape of a type. -/
inductive ShapeError where
  | unexpected (found : Datum) (expected : String)
  | notSingleKey
  | missingField (field : String)
  | unknownField (field : String) (known : List String)
  | duplicateField (field : String)
  | tooShort (length : Nat) (record : String) (fields : Nat)
  | tooLong (length : Nat)
  | unknownVariant (variant : String) (known : List String)
  deriving Repr

/-- Why data could not be read: its text is at fault, or its shape is. -/
inductive Fault where
  | unreadable
  | shape (error : ShapeError)
  deriving Repr

/-- Where data comes from; the formats differ in how a sequence that stands
for a record may end, and in the spellings of a variant. -/
inductive Origin where
  | memory
  | json
  | toml
  deriving DecidableEq, Repr

namespace ShapeError

/-- Names between backticks, joined for a message. -/
def oneOf (names : List String) : String :=
  match names.map fun name => "`" ++ name ++ "`" with
  | [one] => one
  | [one, other] => one ++ " or " ++ other
  | names => "one of " ++ String.intercalate ", " names

/-- What a number is called that is out of the range of all types for it. -/
def outOfRange? : Datum → Option String
  | .integer value =>
    if value < -0x80000000000000000000000000000000 ||
        0x100000000000000000000000000000000 ≤ value then
      some "integer number"
    else none
  | .oversized => some "floating-point number"
  | _ => none

/-- The text of the error. -/
def message : ShapeError → String
  | .unexpected found expected =>
    match outOfRange? found with
    | some noun => noun ++ " overflowed"
    | none => "invalid type: " ++ found.describe ++ ", expected " ++ expected
  | .notSingleKey => "invalid value: map, expected map with a single key"
  | .missingField field => "missing field `" ++ field ++ "`"
  | .unknownField field known => "unknown field `" ++ field ++ "`, expected " ++ oneOf known
  | .duplicateField field => "duplicate field `" ++ field ++ "`"
  | .tooShort length record fields =>
    "invalid length " ++ toString length ++ ", expected struct " ++ record ++ " with "
      ++ toString fields ++ (if fields = 1 then " element" else " elements")
  | .tooLong length => "invalid length " ++ toString length ++ ", expected fewer elements in array"
  | .unknownVariant variant known =>
    "unknown variant `" ++ variant ++ "`, expected " ++ oneOf known

end ShapeError

/-- Reads a value out of data. -/
abbrev Reader (α : Type) := Datum → Except Fault α

namespace Reader

variable {α : Type}

/-- The data is not what the reader expects. -/
def unexpected (expected : String) : Reader α := fun d =>
  match d with
  | .broken | .unusable => .error .unreadable
  | d => .error (.shape (.unexpected d expected))

/-- A text, called by the given noun. -/
def textCalled (noun : String) : Reader String
  | .text value => .ok value
  | d => unexpected noun d

/-- A text. -/
def text : Reader String := textCalled "a string"

/-- A truth value. -/
def boolean : Reader Bool
  | .boolean value => .ok value
  | d => unexpected "a boolean" d

/-- A list of what `item` reads. -/
def list (item : Reader α) : Reader (List α)
  | .sequence items => items.mapM item
  | d => unexpected "a sequence" d

/-- A value, or none for null. -/
def optional (value : Reader α) : Reader (Option α)
  | .null => .ok none
  | d => some <$> value d

/-- A mapping from texts, in the order of its members. -/
def mapping (value : Reader α) : Reader (List (String × α))
  | .mapping members cut => do
    let members ← members.mapM fun (key, d) => do return (key, ← value d)
    if cut then .error .unreadable else return members
  | d => unexpected "a map" d

/-- One of the named variants: its name, or a mapping from its name alone to
null.  In memory every kind of data is known before it is read; in a text only
a quote or a brace can begin a variant. -/
def variant (origin : Origin) (variants : List (String × α)) : Reader α := fun d =>
  let named (name : String) : Except Fault α :=
    match variants.lookup name with
    | some value => .ok value
    | none => .error (.shape (.unknownVariant name (variants.map (·.1))))
  match d with
  | .text name => named name
  | .mapping [] _ => .error (if origin = .memory then .shape .notSingleKey else .unreadable)
  | .mapping ((name, content) :: others) cut => do
    if origin = .memory && !others.isEmpty then throw (.shape .notSingleKey)
    let value ← named name
    match content with
    | .null => if others.isEmpty && !cut then return value else throw .unreadable
    | content => unexpected "unit" content
  | .broken | .unusable => .error .unreadable
  | d => if origin = .json then .error .unreadable
    else .error (.shape (.unexpected d "string or map"))

end Reader

/-- A field of a record: how it is read, its value when a mapping lacks it, and
whether a sequence may end before it. -/
structure RecordField (α : Type) where
  name : String
  read : Reader α
  absent : Option α
  mayEndBefore : Bool

namespace RecordField

variable {α : Type}

/-- A field that has to be there. -/
def required (name : String) (read : Reader α) : RecordField α := ⟨name, read, none, false⟩

/-- A field that may be missing. -/
def withDefault (name : String) (read : Reader α) (value : α) : RecordField α :=
  ⟨name, read, some value, true⟩

/-- A field that a mapping may lack; a sequence may not end before it. -/
def inMapping (name : String) (read : Reader α) (value : α) : RecordField α :=
  ⟨name, read, some value, false⟩

/-- The value of the field among the members of its record. -/
def get (field : RecordField α) (members : List (String × Datum)) : Except Fault α :=
  match members.lookup field.name, field.absent with
  | some d, _ => field.read d
  | none, some value => .ok value
  | none, none => .error (.shape (.missingField field.name))

end RecordField

/-- What a record asks of a field, apart from its type. -/
structure FieldCheck where
  name : String
  check : Datum → Except Fault Unit
  mayLack : Bool
  mayEndBefore : Bool

/-- The checks of a field. -/
def RecordField.toCheck {α : Type} (field : RecordField α) : FieldCheck where
  name := field.name
  check d := discard (field.read d)
  mayLack := field.absent.isSome
  mayEndBefore := field.mayEndBefore

/-- The form of a record: its name and fields, and whether other fields are
refused. -/
structure RecordForm where
  name : String
  fields : List FieldCheck
  strict : Bool

namespace RecordForm

variable (form : RecordForm)

/-- Visits the members of a mapping in their order.  Answers the known ones. -/
def visit (seen : List String) : List (String × Datum) → Except Fault (List (String × Datum))
  | [] => .ok []
  | (name, d) :: others =>
    match form.fields.find? (·.name = name) with
    | some field => do
      if seen.contains name then throw (.shape (.duplicateField name))
      field.check d
      return (name, d) :: (← visit (name :: seen) others)
    | none => do
      if form.strict then throw (.shape (.unknownField name (form.fields.map (·.name))))
      if !d.isWhole then throw .unreadable
      visit seen others

/-- Visits the items of a sequence that stand for the fields. -/
def visitSequence (length : Nat) :
    List FieldCheck → List Datum → Except Fault (List (String × Datum))
  | [], _ => .ok []
  | field :: fields, [] =>
    if field.mayEndBefore then visitSequence length fields []
    else .error (.shape (.tooShort length form.name form.fields.length))
  | field :: fields, d :: ds => do
    field.check d
    return (field.name, d) :: (← visitSequence length fields ds)

/-- The members that the data gives the record. -/
def members (origin : Origin) : Reader (List (String × Datum))
  | .mapping given cut => do
    let members ← form.visit [] given
    if cut then throw .unreadable
    match form.fields.find? fun field => !field.mayLack && (members.lookup field.name).isNone with
    | some field => throw (.shape (.missingField field.name))
    | none => return members
  | .sequence items => do
    let members ← form.visitSequence items.length form.fields items
    if form.fields.length < items.length then
      match origin with
      | .memory => throw (.shape (.tooLong items.length))
      | .json => throw .unreadable
      | .toml => return members
    else return members
  | d => Reader.unexpected ("struct " ++ form.name) d

end RecordForm

end OpManifest.Data
