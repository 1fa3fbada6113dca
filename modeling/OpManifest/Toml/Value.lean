import OpManifest.Toml.Quotation
import OpManifest.Toml.Scalar
import OpManifest.Toml.Table

/-!
# Keys and values

The keys of a table and the values under them, among them arrays and tables
within braces.
-/

namespace OpManifest.Toml

open Data (Datum)

/-- What is read from a text, and the text after it. -/
abbrev Scan (α : Type) := List Char → Option (α × List Char)

/-! ## Keys -/

/-- The character may stand in a key without quotes. -/
def isBare (c : Char) : Bool := c.isAlphanum || c = '-' || c = '_'

/-- One part of a key. -/
def scanKeyPart : Scan String := fun cs =>
  let bare := cs.takeWhile isBare
  if bare.isEmpty then do
    let (text, rest) ← scanOnLine cs
    return (.ofList text, rest)
  else some (.ofList bare, cs.dropWhile isBare)

/-- A key: parts between dots.  The last part is apart from those before it. -/
def scanKey (cs : List Char) : Option ((List String × String) × List Char) := do
  let (part, rest) ← scanKeyPart cs
  match skipBlanks rest with
  | '.' :: rest =>
    let rest := skipBlanks rest
    if rest.length < cs.length then
      let ((path, last), rest) ← scanKey rest
      return ((part :: path, last), rest)
    else none
  | rest => return (([], part), rest)
termination_by cs.length

/-- A key, an equals sign and a value. -/
def scanPair (value : Scan Datum) : Scan ((List String × String) × Datum) := fun cs => do
  let (key, rest) ← scanKey cs
  match skipBlanks rest with
  | '=' :: rest =>
    let (d, rest) ← value (skipBlanks rest)
    return ((key, d), rest)
  | _ => none

/-! ## Values -/

/-- Parts between commas, up to the closing mark.  After the last one there may
be a comma. -/
def scanParts {α : Type} (part : Scan α) (closing : Char) (cs : List Char) :
    Option (List α × List Char) :=
  match skipFiller false cs with
  | [] => none
  | c :: rest =>
    if c = closing then some ([], rest)
    else do
      let (first, rest) ← part (c :: rest)
      match skipFiller false rest with
      | ',' :: rest =>
        if rest.length < cs.length then
          let (others, rest) ← scanParts part closing rest
          return (first :: others, rest)
        else none
      | c :: rest => if c = closing then return ([first], rest) else none
      | [] => none
termination_by cs.length

/-- The characters that end a scalar without quotes. -/
def scalarEnds : List Char := ['\t', ' ', '#', ',', '=', '[', ']', '{', '}', '"', '\'']

/-- The character may stand in a scalar without quotes. -/
def isScalarChar (c : Char) : Bool := isPlain c && !scalarEnds.contains c

/-- A scalar without quotes.  Between a date and a time there may be a blank. -/
def scanScalar : Scan Datum := fun cs => do
  let word := cs.takeWhile isScalarChar
  let rest := cs.dropWhile isScalarChar
  match takeDate? word, rest with
  | some (_, []), ' ' :: c :: after =>
    if c.isDigit then
      let time := (c :: after).takeWhile isScalarChar
      return (← scalar? (word ++ ' ' :: time), (c :: after).dropWhile isScalarChar)
    else return (← scalar? word, rest)
  | _, _ => return (← scalar? word, rest)

/-- The table within braces that holds the given pairs. -/
def tableOf? (pairs : List ((List String × String) × Datum)) : Option Datum := do
  let members ← pairs.foldlM
    (fun (members : Members) pair => members.addValue pair.1.1 pair.1.2 pair.2) []
  return (Entry.table .defined members).toDatum

/-- A value that is nested at most so deep. -/
def scanValue (depth : Nat) : Scan Datum := fun cs =>
  match cs, depth with
  | '[' :: _, 0 | '{' :: _, 0 => none
  | '[' :: rest, depth + 1 => do
    let (items, rest) ← scanParts (scanValue depth) ']' rest
    return (.sequence items, rest)
  | '{' :: rest, depth + 1 => do
    let (pairs, rest) ← scanParts (scanPair (scanValue depth)) '}' rest
    return (← tableOf? pairs, rest)
  | '"' :: _, _ | '\'' :: _, _ => do
    let (text, rest) ← scanQuotation cs
    return (.text (.ofList text), rest)
  | _, _ => scanScalar cs

end OpManifest.Toml
