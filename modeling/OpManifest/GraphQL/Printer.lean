import OpManifest.GraphQL.Document
import OpManifest.Text.Blank
import OpManifest.Text.Line

/-!
# Printing GraphQL

The canonical text of a document: two spaces of indent for each level, one
selection on a line, an empty line between definitions.
-/

namespace OpManifest.GraphQL

open Text (isBlank lines)

namespace Printer

/-- The blanks that a line at this indent begins with. -/
def blanks (indent : Nat) : String := .ofList (List.replicate indent ' ')

/-- The indent of the next level. -/
def deeper (indent : Nat) : Nat := indent + 2

/-! ## Strings -/

/-- The characters that a string shows as they are, apart from line feeds. -/
def isPlain (c : Char) : Bool :=
  c = '\r' || c = '\t' || (0x20 ≤ c.toNat && c.toNat ≤ 0xFFFF)

/-- A text is printed as a block if it has a line feed and shows all its other
characters as they are. -/
def isBlock (text : List Char) : Bool :=
  text.contains '\n' && text.all fun c => c = '\n' || isPlain c

/-- A character between quotes.  A character that a string does not show is
written with its decimal code, at least four digits wide. -/
def quotedChar (c : Char) : List Char :=
  match c with
  | '\r' => ['\\', 'r']
  | '\n' => ['\\', 'n']
  | '\t' => ['\\', 't']
  | '"' => ['\\', '"']
  | '\\' => ['\\', '\\']
  | c =>
    if isPlain c then [c]
    else
      let digits := Nat.toDigits 10 c.toNat
      ['\\', 'u'] ++ List.replicate (4 - digits.length) '0' ++ digits

/-- Escapes the triple quotes of a line. -/
def escapeTriple : List Char → List Char
  | '"' :: '"' :: '"' :: rest => '\\' :: '"' :: '"' :: '"' :: escapeTriple rest
  | c :: rest => c :: escapeTriple rest
  | [] => []

/-- A line of a block; a blank line is left empty. -/
def blockLine (indent : Nat) (line : List Char) : List Char :=
  if line.all isBlank then ['\n']
  else List.replicate (deeper indent) ' ' ++ escapeTriple line ++ ['\n']

/-- A string literal on a line with the given indent. -/
def string (indent : Nat) (text : String) : String :=
  if isBlock text.toList then
    "\"\"\"\n" ++ .ofList ((lines text.toList).flatMap (blockLine indent)) ++ blanks indent
      ++ "\"\"\""
  else "\"" ++ .ofList (text.toList.flatMap quotedChar) ++ "\""

/-! ## Values, types and directives -/

/-- Items with a comma and a blank between two of them. -/
def commas (items : List String) : String := String.intercalate ", " items

mutual

/-- A value on a line with the given indent. -/
def value (indent : Nat) : Value → String
  | .reference name => "$" ++ name
  | .int number => toString number
  | .float number => number.text
  | .string text => string indent text
  | .boolean true => "true"
  | .boolean false => "false"
  | .null => "null"
  | .symbol name => name
  | .list items => "[" ++ commas (values indent items) ++ "]"
  | .object members => "\x7b" ++ commas (fields indent members) ++ "\x7d"

/-- The items of a list. -/
def values (indent : Nat) : List Value → List String
  | [] => []
  | item :: items => value indent item :: values indent items

/-- Named values: the fields of an object, or arguments. -/
def fields (indent : Nat) : List (String × Value) → List String
  | [] => []
  | (name, item) :: others => (name ++ ": " ++ value indent item) :: fields indent others

end

/-- Arguments in parentheses, or nothing. -/
def arguments (indent : Nat) (arguments : List (String × Value)) : String :=
  if arguments.isEmpty then "" else "(" ++ commas (fields indent arguments) ++ ")"

/-- Directives, each after a blank. -/
def directives (indent : Nat) (directives : List Directive) : String :=
  String.join (directives.map fun d => " @" ++ d.name ++ arguments indent d.arguments)

/-- A type. -/
def typeRef : TypeRef → String
  | .named name => name
  | .list item => "[" ++ typeRef item ++ "]"
  | .nonNull type => typeRef type ++ "!"

/-- A variable definition. -/
def variableDefinition (v : VariableDefinition) : String :=
  "$" ++ v.name ++ ": " ++ typeRef v.type ++
    match v.default with
    | some default => " = " ++ value 0 default
    | none => ""

/-! ## Selections -/

mutual

/-- A selection on lines of its own. -/
def selection (indent : Nat) : Selection → String
  | .field responseName name args dirs sels =>
    blanks indent ++ (match responseName with
      | some responseName => responseName ++ ": "
      | none => "")
      ++ name ++ arguments indent args ++ directives indent dirs
      ++ (match sels with
        | [] => ""
        | first :: others => " \x7b\n" ++ selection (deeper indent) first
          ++ selections (deeper indent) others ++ blanks indent ++ "\x7d")
      ++ "\n"
  | .spread name dirs => blanks indent ++ "..." ++ name ++ directives indent dirs ++ "\n"
  | .inlineFragment typeCondition dirs sels =>
    blanks indent ++ "..." ++ (match typeCondition with
      | some typeCondition => " on " ++ typeCondition
      | none => "")
      ++ directives indent dirs ++ " \x7b\n" ++ selections (deeper indent) sels ++ blanks indent
      ++ "\x7d\n"

/-- Selections one after the other. -/
def selections (indent : Nat) : List Selection → String
  | [] => ""
  | first :: others => selection indent first ++ selections indent others

end

/-- A selection set of a definition. -/
def selectionSet (set : List Selection) : String :=
  "\x7b\n" ++ selections (deeper 0) set ++ "\x7d\n"

/-! ## Definitions -/

/-- The variables of an operation in parentheses, or nothing.  A subscription
writes them without separators, and only after a name. -/
def variableList (operation : Operation) : String :=
  let definitions := operation.variableDefinitions.map variableDefinition
  if definitions.isEmpty then ""
  else
    match operation.kind, operation.name with
    | .subscription, none => ""
    | .subscription, some _ => "(" ++ String.join definitions ++ ")"
    | _, _ => "(" ++ commas definitions ++ ")"

/-- One definition. -/
def definition : Definition → String
  | .shorthand set => selectionSet set
  | .operation operation =>
    operation.kind.keyword ++ (match operation.name with
      | some name => " " ++ name
      | none => "")
      ++ variableList operation ++ directives 0 operation.directives ++ " "
      ++ selectionSet operation.selections
  | .fragment fragment =>
    "fragment " ++ fragment.name ++ " on " ++ fragment.typeCondition
      ++ directives 0 fragment.directives ++ " " ++ selectionSet fragment.selections

end Printer

/-- The canonical text of a document. -/
def Document.print (document : Document) : String :=
  String.intercalate "\n" (document.definitions.map Printer.definition)

end OpManifest.GraphQL
