import OpManifest.Data.Datum

/-!
# JSON values

The JSON values that the library writes, and their text: with one member or
item on each line, or all on one line.
-/

namespace OpManifest

/-- A JSON value.  The members of an object keep their order. -/
inductive Json where
  | null
  | boolean (value : Bool)
  | string (value : String)
  | array (items : List Json)
  | object (members : List (String × Json))
  deriving Inhabited, BEq, Repr

namespace Json

open Data (Datum)

mutual

/-- The value as data. -/
def toDatum : Json → Datum
  | .null => .null
  | .boolean value => .boolean value
  | .string value => .text value
  | .array items => .sequence (itemsToData items)
  | .object members => .mapping (membersToData members) false

/-- The items of an array as data. -/
def itemsToData : List Json → List Datum
  | [] => []
  | item :: items => item.toDatum :: itemsToData items

/-- The members of an object as data. -/
def membersToData : List (String × Json) → List (String × Datum)
  | [] => []
  | (key, item) :: members => (key, item.toDatum) :: membersToData members

end

/-! ## Text -/

/-- A character between the quotes of a string.  Controls without a short
escape are written with their code. -/
def escapeChar (c : Char) : List Char :=
  match c with
  | '"' => ['\\', '"']
  | '\\' => ['\\', '\\']
  | '\x08' => ['\\', 'b']
  | '\x0c' => ['\\', 'f']
  | '\n' => ['\\', 'n']
  | '\r' => ['\\', 'r']
  | '\t' => ['\\', 't']
  | c =>
    if c.toNat < 0x20 then
      ['\\', 'u', '0', '0', Nat.digitChar (c.toNat / 16), Nat.digitChar (c.toNat % 16)]
    else [c]

/-- A string in quotes. -/
def quote (text : String) : String :=
  "\"" ++ .ofList (text.toList.flatMap escapeChar) ++ "\""

/-- A line feed and the indent of a level. -/
def newLine (level : Nat) : String := "\n" ++ .ofList (List.replicate (2 * level) ' ')

mutual

/-- The text of a value at a level of nesting. -/
def prettyAt (level : Nat) : Json → String
  | .null => "null"
  | .boolean true => "true"
  | .boolean false => "false"
  | .string value => quote value
  | .array [] => "[]"
  | .array (first :: others) =>
    "[" ++ newLine (level + 1) ++ prettyAt (level + 1) first ++ prettyItems (level + 1) others
      ++ newLine level ++ "]"
  | .object [] => "\x7b\x7d"
  | .object ((key, first) :: others) =>
    "\x7b" ++ newLine (level + 1) ++ quote key ++ ": " ++ prettyAt (level + 1) first
      ++ prettyMembers (level + 1) others ++ newLine level ++ "\x7d"

/-- The further items of an array, each after a comma. -/
def prettyItems (level : Nat) : List Json → String
  | [] => ""
  | item :: items => "," ++ newLine level ++ prettyAt level item ++ prettyItems level items

/-- The further members of an object, each after a comma. -/
def prettyMembers (level : Nat) : List (String × Json) → String
  | [] => ""
  | (key, item) :: members =>
    "," ++ newLine level ++ quote key ++ ": " ++ prettyAt level item ++ prettyMembers level members

end

/-- The text of a value, indented by two blanks for each level. -/
def pretty (value : Json) : String := prettyAt 0 value

mutual

/-- The text of a value without blanks or line breaks. -/
def compact : Json → String
  | .null => "null"
  | .boolean true => "true"
  | .boolean false => "false"
  | .string value => quote value
  | .array items => "[" ++ String.intercalate "," (compactItems items) ++ "]"
  | .object members => "\x7b" ++ String.intercalate "," (compactMembers members) ++ "\x7d"

/-- The texts of the items of an array. -/
def compactItems : List Json → List String
  | [] => []
  | item :: items => item.compact :: compactItems items

/-- The texts of the members of an object. -/
def compactMembers : List (String × Json) → List String
  | [] => []
  | (key, item) :: members => (quote key ++ ":" ++ item.compact) :: compactMembers members

end

end Json

end OpManifest
