import OpManifest.GraphQL.Document
import OpManifest.Json.Basic

/-!
# Plain values

The arguments of the compiler's own directives are made of strings, booleans,
lists and objects.  `PlainValue.decode` reads such a value out of a literal and
refuses every other kind, wherever in the literal it stands.
-/

namespace OpManifest

open GraphQL (Value Directive)

/-- The kind of a literal. -/
inductive LiteralKind where
  | string
  | boolean
  | list
  | object
  | int
  | float
  | symbol
  | null
  | reference
  deriving DecidableEq, Repr, Inhabited

namespace LiteralKind

/-- The kinds in the words of GraphQL. -/
def name : LiteralKind → String
  | .string => "string"
  | .boolean => "boolean"
  | .list => "list"
  | .object => "object"
  | .int => "int"
  | .float => "float"
  | .symbol => "enum"
  | .null => "null"
  | .reference => "variable"

/-- The kind of a literal. -/
def ofValue : Value → LiteralKind
  | .string _ => .string
  | .boolean _ => .boolean
  | .list _ => .list
  | .object _ => .object
  | .int _ => .int
  | .float _ => .float
  | .symbol _ => .symbol
  | .null => .null
  | .reference _ => .reference

end LiteralKind

/-- A value of the kinds that directives accept. -/
inductive PlainValue where
  | string (text : String)
  | boolean (value : Bool)
  | list (items : List PlainValue)
  | object (fields : List (String × PlainValue))
  deriving Repr, Inhabited

namespace PlainValue

/-- The kind of the literal that the value was written as. -/
def kind : PlainValue → LiteralKind
  | .string _ => .string
  | .boolean _ => .boolean
  | .list _ => .list
  | .object _ => .object

mutual

/-- The value of a literal, or the kind of the first literal in it that is not
accepted. -/
def decode : Value → Except LiteralKind PlainValue
  | .string text => .ok (.string text)
  | .boolean value => .ok (.boolean value)
  | .list items => return .list (← decodeItems items)
  | .object fields => return .object (← decodeFields fields)
  | .int _ => .error .int
  | .float _ => .error .float
  | .symbol _ => .error .symbol
  | .null => .error .null
  | .reference _ => .error .reference

/-- The values of list items, in their order. -/
def decodeItems : List Value → Except LiteralKind (List PlainValue)
  | [] => .ok []
  | item :: items => return (← decode item) :: (← decodeItems items)

/-- The values of object fields, in their order. -/
def decodeFields : List (String × Value) → Except LiteralKind (List (String × PlainValue))
  | [] => .ok []
  | (name, field) :: fields => return (name, ← decode field) :: (← decodeFields fields)

end

mutual

/-- The value as JSON. -/
def toJson : PlainValue → Json
  | .string text => .string text
  | .boolean value => .boolean value
  | .list items => .array (itemsToJson items)
  | .object fields => .object (fieldsToJson fields)

/-- List items as JSON. -/
def itemsToJson : List PlainValue → List Json
  | [] => []
  | item :: items => item.toJson :: itemsToJson items

/-- Object fields as JSON. -/
def fieldsToJson : List (String × PlainValue) → List (String × Json)
  | [] => []
  | (name, field) :: fields => (name, field.toJson) :: fieldsToJson fields

end

end PlainValue

end OpManifest
