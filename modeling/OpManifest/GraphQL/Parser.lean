import OpManifest.GraphQL.Document
import OpManifest.GraphQL.Lexeme
import Std.Data.ExtTreeMap

/-!
# Parsing GraphQL

A predictive parser: one token of lookahead decides every choice, so the only
thing to say about a text that is no document is where its first token stands
that no document can go on with.

Parentheses, brackets and braces may be nested fifty deep.  The parsers of
nested phrases recurse on the depth that is left.
-/

namespace OpManifest.GraphQL

/-- A parser answers a phrase and the lexemes after it, or the lexemes from
the one on that no phrase can go on with. -/
abbrev Parser := StateT (List Lexeme) (Except (List Lexeme))

namespace Parser

/-- The deepest nesting of brackets of all kinds. -/
def maxDepth : Nat := 50

/-- The next lexeme does not fit. -/
def unexpected {α : Type} : Parser α := fun ls => .error ls

/-- The next token, which stays. -/
def peek : Parser (Option Token) := fun ls => .ok (ls.head?.map (·.token), ls)

/-- Takes the next token, which has to be the given one. -/
def expect (token : Token) : Parser Unit := fun ls =>
  match ls with
  | l :: rest => if l.token = token then .ok ((), rest) else .error ls
  | [] => .error []

/-- Takes the next token, which has to be the given punctuator. -/
def punctuator (c : Char) : Parser Unit := expect (.punctuator c)

/-- Takes a name. -/
def name : Parser String := fun ls =>
  match ls with
  | ⟨.name text, _⟩ :: rest => .ok (text, rest)
  | _ => .error ls

/-- Takes phrases up to the closing punctuator, and takes that too. -/
def upTo {α : Type} (close : Char) (phrase : Parser α) (ls : List Lexeme) :
    Except (List Lexeme) (List α × List Lexeme) :=
  match ls with
  | [] => .error []
  | l :: rest =>
    if l.token = .punctuator close then .ok ([], rest)
    else
      match phrase ls with
      | .error failure => .error failure
      | .ok (first, rest') =>
        if rest'.length ≤ rest.length then
          match upTo close phrase rest' with
          | .error failure => .error failure
          | .ok (others, rest'') => .ok (first :: others, rest'')
        else .error ls
termination_by ls.length

/-- Any number of phrases, then the closing punctuator. -/
def many {α : Type} (close : Char) (phrase : Parser α) : Parser (List α) := upTo close phrase

/-- At least one phrase, then the closing punctuator. -/
def many1 {α : Type} (close : Char) (phrase : Parser α) : Parser (List α) := do
  let first ← phrase
  return first :: (← many close phrase)

/-- Object fields in the order of their names; of two with one name the last
counts. -/
def sortFields (fields : List (String × Value)) : List (String × Value) :=
  (Std.ExtTreeMap.ofList fields compare).toList

/-- A value whose nested values are read by `nested`, if brackets may be opened
at all.  A constant has no variables. -/
def valueAbove (constant : Bool) (nested : Option (Parser Value)) : Parser Value := do
  match ← peek with
  | some (.name text) => do
    discard name
    return match text with
      | "true" => .boolean true
      | "false" => .boolean false
      | "null" => .null
      | text => .symbol text
  | some (.int number) => expect (.int number); return .int number
  | some (.float number) => expect (.float number); return .float number
  | some (.string text) => expect (.string text); return .string text
  | some (.punctuator '$') =>
    if constant then unexpected
    else do
      punctuator '$'
      return .reference (← name)
  | some (.punctuator '[') =>
    match nested with
    | none => unexpected
    | some nested => do
      punctuator '['
      return .list (← many ']' nested)
  | some (.punctuator '{') =>
    match nested with
    | none => unexpected
    | some nested => do
      punctuator '{'
      let fields ← many '}' do
        let field ← name
        punctuator ':'
        return (field, ← nested)
      return .object (sortFields fields)
  | _ => unexpected

/-- A value below `depth` more brackets. -/
def value (constant : Bool) (depth : Nat) : Parser Value :=
  match depth with
  | 0 => valueAbove constant none
  | depth + 1 => valueAbove constant (some (value constant depth))

/-- `(name: value …)`, or nothing. -/
def arguments (depth : Nat) : Parser (List (String × Value)) := do
  match ← peek, depth with
  | some (.punctuator '('), depth + 1 => do
    punctuator '('
    many1 ')' do
      let argument ← name
      punctuator ':'
      return (argument, ← value false depth)
  | some (.punctuator '('), 0 => unexpected
  | _, _ => return []

/-- The directives up to the next token that is no `@`. -/
def directives (depth : Nat) (ls : List Lexeme) :
    Except (List Lexeme) (List Directive × List Lexeme) :=
  match ls with
  | [] => .ok ([], [])
  | l :: rest =>
    if l.token = .punctuator '@' then
      match (do return Directive.mk (← name) (← arguments depth) : Parser Directive) rest with
      | .error failure => .error failure
      | .ok (first, rest') =>
        if rest'.length ≤ rest.length then
          match directives depth rest' with
          | .error failure => .error failure
          | .ok (others, rest'') => .ok (first :: others, rest'')
        else .error ls
    else .ok ([], ls)
termination_by ls.length

/-- The type, or the type that is not null if an exclamation mark follows. -/
def marked (type : TypeRef) : Parser TypeRef := do
  match ← peek with
  | some (.punctuator '!') => do
    punctuator '!'
    return .nonNull type
  | _ => return type

/-- `Name`, `[Type]`, and either with an exclamation mark.  The type in brackets
is read by `item`, if brackets may be opened at all. -/
def typeAbove (item : Option (Parser TypeRef)) : Parser TypeRef := do
  match ← peek, item with
  | some (.punctuator '['), some item => do
    punctuator '['
    let type ← item
    punctuator ']'
    marked (.list type)
  | some (.punctuator '['), none => unexpected
  | _, _ => do marked (.named (← name))

/-- A type below `depth` more brackets. -/
def typeRef (depth : Nat) : Parser TypeRef :=
  match depth with
  | 0 => typeAbove none
  | depth + 1 => typeAbove (some (typeRef depth))

/-- `$name: Type = value`; the default may be missing. -/
def variableDefinition (depth : Nat) : Parser VariableDefinition := do
  punctuator '$'
  let variableName ← name
  punctuator ':'
  let type ← typeRef depth
  match ← peek with
  | some (.punctuator '=') => do
    punctuator '='
    return ⟨variableName, type, some (← value true depth)⟩
  | _ => return ⟨variableName, type, none⟩

/-- `($name: Type …)`, or nothing. -/
def variableDefinitions (depth : Nat) : Parser (List VariableDefinition) := do
  match ← peek, depth with
  | some (.punctuator '('), depth + 1 => do
    punctuator '('
    many1 ')' (variableDefinition depth)
  | some (.punctuator '('), 0 => unexpected
  | _, _ => return []

/-- A selection whose nested selection sets are read by `set`. -/
def selection (depth : Nat) (set : Parser (List Selection)) : Parser Selection := do
  match ← peek with
  | some .ellipsis => do
    expect .ellipsis
    match ← peek with
    | some (.name "on") => do
      discard name
      let typeCondition ← name
      return .inlineFragment (some typeCondition) (← directives depth) (← set)
    | some (.name _) => do
      let fragment ← name
      return .spread fragment (← directives depth)
    | _ => return .inlineFragment none (← directives depth) (← set)
  | _ => do
    let first ← name
    let (responseName, fieldName) ← do
      match ← peek with
      | some (.punctuator ':') => do
        punctuator ':'
        pure (some first, ← name)
      | _ => pure (none, first)
    let arguments ← arguments depth
    let directives ← directives depth
    match ← peek with
    | some (.punctuator '{') =>
      return .field responseName fieldName arguments directives (← set)
    | _ => return .field responseName fieldName arguments directives []

/-- `{ selection … }`. -/
def selectionSet (depth : Nat) : Parser (List Selection) :=
  match depth with
  | 0 => unexpected
  | depth + 1 => do
    punctuator '{'
    many1 '}' (selection depth (selectionSet depth))

/-- An operation after its keyword. -/
def operation (kind : OperationKind) : Parser Operation := do
  let operationName ← do
    match ← peek with
    | some (.name text) => do
      discard name
      pure (some text)
    | _ => pure none
  let definitions ← variableDefinitions maxDepth
  let directives ← directives maxDepth
  return ⟨kind, operationName, definitions, directives, ← selectionSet maxDepth⟩

/-- A fragment after its keyword. -/
def fragment : Parser Fragment := do
  let fragmentName ← name
  expect (.name "on")
  let typeCondition ← name
  let directives ← directives maxDepth
  return ⟨fragmentName, typeCondition, directives, ← selectionSet maxDepth⟩

/-- One definition. -/
def definition : Parser Definition := do
  match ← peek with
  | some (.punctuator '{') => .shorthand <$> selectionSet maxDepth
  | some (.name "query") => discard name; .operation <$> operation .query
  | some (.name "mutation") => discard name; .operation <$> operation .mutation
  | some (.name "subscription") => discard name; .operation <$> operation .subscription
  | some (.name "fragment") => discard name; .fragment <$> fragment
  | _ => unexpected

/-- Definitions up to the end. -/
def definitions (ls : List Lexeme) : Except (List Lexeme) (List Definition) :=
  match ls with
  | [] => .ok []
  | l :: rest =>
    match definition (l :: rest) with
    | .error failure => .error failure
    | .ok (first, rest') =>
      if rest'.length ≤ rest.length then
        match definitions rest' with
        | .error failure => .error failure
        | .ok others => .ok (first :: others)
      else .error ls
termination_by ls.length

end Parser

/-- The document that a text writes, or the position of the first token that
no document can go on with.  A document has at least one definition. -/
def Document.parse (text : String) : Except Position Document :=
  let source := Lexemes.ofString text
  let positionOf (failure : List Lexeme) : Position :=
    match failure with
    | l :: _ => l.position
    | [] => source.stop
  match Parser.definitions source.lexemes with
  | .error failure => .error (positionOf failure)
  | .ok definitions =>
    if source.complete && !definitions.isEmpty then .ok ⟨definitions⟩ else .error source.stop

end OpManifest.GraphQL
