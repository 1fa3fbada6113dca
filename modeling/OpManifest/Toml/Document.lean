import OpManifest.Data.Record
import OpManifest.Toml.Value

/-!
# TOML documents

A document is a series of statements, which build the root table one after the
other.  It is read as a whole before anything is taken from it.
-/

namespace OpManifest.Toml

open Data (Datum)

/-- A line of a document that says something: a pair, or the header of a table
or of an element of an array of tables. -/
inductive Statement where
  | pair (path : List String) (key : String) (value : Datum)
  | header (path : List String) (key : String)
  | element (path : List String) (key : String)

/-- How deep arrays and tables within braces may be nested. -/
def maxDepth : Nat := 80

/-- The statement that a line begins with. -/
def scanStatement : Scan Statement
  | '[' :: '[' :: rest => do
    let ((path, key), rest) ← scanKey (skipBlanks rest)
    match skipBlanks rest with
    | ']' :: ']' :: rest => return (.element path key, rest)
    | _ => none
  | '[' :: rest => do
    let ((path, key), rest) ← scanKey (skipBlanks rest)
    match skipBlanks rest with
    | ']' :: rest => return (.header path key, rest)
    | _ => none
  | rest => do
    let (((path, key), d), rest) ← scanPair (scanValue maxDepth) rest
    return (.pair path key d, rest)

/-- The statements of a document. -/
def statements? (cs : List Char) : Option (List Statement) :=
  match endLine? cs with
  | some rest =>
    if rest.length < cs.length then statements? rest
    else if cs.isEmpty then some []
    else none
  | none => do
    let (statement, rest) ← scanStatement (skipBlanks cs)
    let rest ← endLine? rest
    if rest.length < cs.length then return statement :: (← statements? rest) else none
termination_by cs.length

/-- The root table so far, and the header that pairs stand under. -/
structure Draft where
  members : Members
  header : List String

/-- Adds what a statement says. -/
def Draft.add (draft : Draft) : Statement → Option Draft
  | .pair path key d => do
    return { draft with members := ← draft.members.addValueAt draft.header path key d }
  | .header path key => do return ⟨← draft.members.define path key, path ++ [key]⟩
  | .element path key => do return ⟨← draft.members.defineElement path key, path ++ [key]⟩

/-- The data of a document.  A byte order mark at its start does not count. -/
def datum? (text : String) : Option Datum := do
  let cs := match text.toList with
    | '\uFEFF' :: rest => rest
    | cs => cs
  let draft ← (← statements? cs).foldlM Draft.add ⟨[], []⟩
  return (Entry.table .defined draft.members).toDatum

/-- Reads a value out of a document. -/
def readText {α : Type} (reader : Data.Reader α) (text : String) : Except Data.Fault α :=
  match datum? text with
  | some d => reader d
  | none => .error .unreadable

end OpManifest.Toml
