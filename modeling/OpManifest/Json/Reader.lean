import OpManifest.Data.Record
import OpManifest.Text.Digit

/-!
# Reading JSON

A JSON text as data.  A fault in the text becomes broken data at its place, so
that what stands before it can still be read.
-/

namespace OpManifest.Json

open Data (Datum)
open Decimal (Binary64)
open Text (hexNumber? digitsValue)

/-- The characters between the tokens of a text. -/
def isSpace (c : Char) : Bool := c = ' ' || c = '\n' || c = '\t' || c = '\r'

/-- Passes over the characters between tokens. -/
def skipSpace (cs : List Char) : List Char := cs.dropWhile isSpace

/-! ## Strings -/

/-- A string between its quotes: characters, and code units given by their
number. -/
inductive Unit16 where
  | char (c : Char)
  | code (value : Nat)
  deriving DecidableEq, Repr

/-- The character that a backslash and a letter stand for. -/
def shortEscape : Char → Option Char
  | '"' => some '"'
  | '\\' => some '\\'
  | '/' => some '/'
  | 'b' => some '\x08'
  | 'f' => some '\x0c'
  | 'n' => some '\n'
  | 'r' => some '\r'
  | 't' => some '\t'
  | _ => none

/-- Cuts a string after its opening quote into its units.  Answers the text
after its closing quote. -/
def scanString : List Char → Option (List Unit16 × List Char)
  | '"' :: rest => some ([], rest)
  | '\\' :: 'u' :: a :: b :: c :: d :: rest => do
    let code ← hexNumber? [a, b, c, d]
    let (units, rest) ← scanString rest
    return (.code code :: units, rest)
  | '\\' :: c :: rest => do
    let escaped ← shortEscape c
    let (units, rest) ← scanString rest
    return (.char escaped :: units, rest)
  | c :: rest =>
    if c.toNat < 0x20 || c = '\\' then none
    else do
      let (units, rest) ← scanString rest
      return (.char c :: units, rest)
  | [] => none

/-- The text of the units.  A high surrogate has to stand before a low one. -/
def decodeUnits : List Unit16 → Option (List Char)
  | [] => some []
  | .char c :: rest => (c :: ·) <$> decodeUnits rest
  | .code high :: .code low :: rest =>
    if 0xD800 ≤ high && high < 0xDC00 then
      if 0xDC00 ≤ low && low < 0xE000 then
        (Char.ofNat (0x10000 + (high - 0xD800) * 0x400 + (low - 0xDC00)) :: ·) <$> decodeUnits rest
      else none
    else if 0xDC00 ≤ high && high < 0xE000 then none
    else (Char.ofNat high :: ·) <$> decodeUnits (.code low :: rest)
  | .code code :: rest =>
    if 0xD800 ≤ code && code < 0xE000 then none else (Char.ofNat code :: ·) <$> decodeUnits rest

/-! ## Numbers -/

/-- Splits the digits off that a text begins with. -/
def spanDigits (cs : List Char) : List Char × List Char :=
  (cs.takeWhile Char.isDigit, cs.dropWhile Char.isDigit)

/-- The digits after a point, and what follows them. -/
def scanPart : List Char → Option (List Char × List Char)
  | '.' :: rest =>
    let (digits, rest) := spanDigits rest
    if digits.isEmpty then none else some (digits, rest)
  | rest => some ([], rest)

/-- The exponent after its letter, if there is one. -/
def scanExponent : List Char → Option (Option Int × List Char)
  | c :: rest =>
    if c = 'e' || c = 'E' then
      let (negative, rest) := match rest with
        | '-' :: rest => (true, rest)
        | '+' :: rest => (false, rest)
        | rest => (false, rest)
      let (digits, rest) := spanDigits rest
      if digits.isEmpty then none
      else some (some (if negative then -(digitsValue digits : Int) else digitsValue digits), rest)
    else some (none, c :: rest)
  | [] => some (none, [])

/-- A number as data.  Whole numbers that need more than 64 bits are read as
floating point numbers; a number out of their range is unusable. -/
def numberDatum (negative : Bool) (whole part : List Char) (exponent : Option Int) : Datum :=
  let magnitude := digitsValue whole
  let isInteger := part.isEmpty && exponent.isNone &&
    (if negative then 0 < magnitude && magnitude ≤ 0x8000000000000000
      else magnitude < 0x10000000000000000)
  if isInteger then .integer (if negative then -(magnitude : Int) else magnitude)
  else
    match Binary64.ofFraction
        ⟨negative, digitsValue (whole ++ part), exponent.getD 0 - part.length⟩ with
    | .infinite _ => .unusable
    | value => .float value

/-- The number that a text begins with. -/
def scanNumber (cs : List Char) : Option (Datum × List Char) := do
  let (negative, cs) := match cs with
    | '-' :: rest => (true, rest)
    | cs => (false, cs)
  let (whole, rest) := spanDigits cs
  if whole.isEmpty || (whole.head? = some '0' && 1 < whole.length) then none
  else do
    let (part, rest) ← scanPart rest
    let (exponent, rest) ← scanExponent rest
    return (numberDatum negative whole part exponent, rest)

/-! ## Values -/

/-- What is read from a text: the data, and the text after it unless the data
is at fault. -/
abbrev Scan := List Char → Datum × Option (List Char)

/-- Data at fault. -/
def fault : Datum × Option (List Char) := (.broken, none)

/-- The given word. -/
def scanWord (word : List Char) (d : Datum) : Scan := fun cs =>
  if word.isPrefixOf cs then (d, some (cs.drop word.length)) else fault

/-- The items of an array from its first item on, through its bracket. -/
def scanItems (item : Scan) (cs : List Char) : List Datum × Option (List Char) :=
  match item cs with
  | (d, none) => ([d], none)
  | (d, some rest) =>
    match skipSpace rest with
    | ']' :: rest => ([d], some rest)
    | ',' :: rest =>
      if rest.length < cs.length then
        let (ds, rest) := scanItems item rest
        (d :: ds, rest)
      else ([d, .broken], none)
    | _ => ([d, .broken], none)
termination_by cs.length

/-- The members of an object from its first key on, through its brace. -/
def scanMembers (item : Scan) (cs : List Char) :
    List (String × Datum) × Option (List Char) :=
  match skipSpace cs with
  | '"' :: rest =>
    match scanString rest with
    | none => ([], none)
    | some (units, rest) =>
      match decodeUnits units, skipSpace rest with
      | none, _ => ([], none)
      | some key, ':' :: rest =>
        match item rest with
        | (d, none) => ([(.ofList key, d)], none)
        | (d, some rest) =>
          match skipSpace rest with
          | '}' :: rest => ([(.ofList key, d)], some rest)
          | ',' :: rest =>
            if rest.length < cs.length then
              let (members, rest) := scanMembers item rest
              ((.ofList key, d) :: members, rest)
            else ([(.ofList key, d)], none)
          | _ => ([(.ofList key, d)], none)
      | some key, _ => ([(.ofList key, .broken)], none)
  | _ => ([], none)
termination_by cs.length

/-- A value that is nested at most so deep. -/
def scanValue (depth : Nat) : Scan := fun cs =>
  match skipSpace cs with
  | 'n' :: rest => scanWord "null".toList .null ('n' :: rest)
  | 't' :: rest => scanWord "true".toList (.boolean true) ('t' :: rest)
  | 'f' :: rest => scanWord "false".toList (.boolean false) ('f' :: rest)
  | '"' :: rest =>
    match scanString rest with
    | none => fault
    | some (units, rest) =>
      match decodeUnits units with
      | some text => (.text (.ofList text), some rest)
      | none => (.unusable, some rest)
  | '[' :: rest =>
    match depth, skipSpace rest with
    | 0, _ => fault
    | _, ']' :: rest => (.sequence [], some rest)
    | depth + 1, rest =>
      let (items, rest) := scanItems (scanValue depth) rest
      (.sequence items, rest)
  | '{' :: rest =>
    match depth, skipSpace rest with
    | 0, _ => fault
    | _, '}' :: rest => (.mapping [] false, some rest)
    | depth + 1, rest =>
      let (members, rest) := scanMembers (scanValue depth) rest
      (.mapping members rest.isNone, rest)
  | c :: rest =>
    if c = '-' || c.isDigit then
      match scanNumber (c :: rest) with
      | some (d, rest) => (d, some rest)
      | none => fault
    else fault
  | [] => fault

/-- Reads a value out of a whole text.  No value is nested deeper than its text
is long. -/
def readText {α : Type} (reader : Data.Reader α) (text : String) : Except Data.Fault α := do
  let (d, rest) := scanValue text.length text.toList
  let value ← reader d
  match rest with
  | some rest => if (skipSpace rest).isEmpty then return value else throw .unreadable
  | none => throw .unreadable

end OpManifest.Json
