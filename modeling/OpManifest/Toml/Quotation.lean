import OpManifest.Text.Digit
import OpManifest.Toml.Filler

/-!
# Quoted strings

A string on one line or on several, in double quotes with escapes or in single
quotes without.
-/

namespace OpManifest.Toml

open Text (hexNumber? charOfCode?)

/-- The character that a backslash and a letter stand for. -/
def shortEscape? : Char → Option Char
  | 'b' => some '\x08'
  | 't' => some '\t'
  | 'n' => some '\n'
  | 'f' => some '\x0c'
  | 'r' => some '\r'
  | 'e' => some '\x1b'
  | '"' => some '"'
  | '\\' => some '\\'
  | _ => none

/-- The character with the code that the digits spell. -/
def codeEscape? (digits : List Char) : Option Char := (hexNumber? digits).bind charOfCode?

/-- Puts a character, if there is one, before what is scanned. -/
def before (c? : Option Char) (scanned : Option (List Char × List Char)) :
    Option (List Char × List Char) := do
  let c ← c?
  let (text, rest) ← scanned
  return (c :: text, rest)

/-- A string on one line, after its double quote. -/
def scanBasic : List Char → Option (List Char × List Char)
  | '"' :: rest => some ([], rest)
  | '\\' :: 'x' :: a :: b :: rest => before (codeEscape? [a, b]) (scanBasic rest)
  | '\\' :: 'u' :: a :: b :: c :: d :: rest => before (codeEscape? [a, b, c, d]) (scanBasic rest)
  | '\\' :: 'U' :: a :: b :: c :: d :: e :: f :: g :: h :: rest =>
    before (codeEscape? [a, b, c, d, e, f, g, h]) (scanBasic rest)
  | '\\' :: c :: rest => before (shortEscape? c) (scanBasic rest)
  | c :: rest => if isPlain c then before c (scanBasic rest) else none
  | [] => none

/-- What may come after a backslash at the end of a line: the break, then blanks
and breaks up to the next character. -/
inductive Gap where
  | closed
  | beforeBreak
  | afterBreak
  deriving DecidableEq

/-- A string on several lines, after its three double quotes.  Up to two quotes
may stand before the closing ones.  A backslash at the end of a line joins it
with the next character that is no blank. -/
def scanBasicLines (gap : Gap) : List Char → Option (List Char × List Char)
  | '\r' :: '\n' :: rest =>
    if gap = .closed then before '\r' (before '\n' (scanBasicLines .closed rest))
    else scanBasicLines .afterBreak rest
  | '\n' :: rest =>
    if gap = .closed then before '\n' (scanBasicLines .closed rest)
    else scanBasicLines .afterBreak rest
  | c :: rest =>
    if gap ≠ .closed && (c = ' ' || c = '\t') then scanBasicLines gap rest
    else if gap = .beforeBreak then none
    else
      match c, rest with
      | '"', '"' :: '"' :: '"' :: '"' :: rest => some (['"', '"'], rest)
      | '"', '"' :: '"' :: '"' :: rest => some (['"'], rest)
      | '"', '"' :: '"' :: rest => some ([], rest)
      | '\\', 'x' :: a :: b :: rest => before (codeEscape? [a, b]) (scanBasicLines .closed rest)
      | '\\', 'u' :: a :: b :: c :: d :: rest =>
        before (codeEscape? [a, b, c, d]) (scanBasicLines .closed rest)
      | '\\', 'U' :: a :: b :: c :: d :: e :: f :: g :: h :: rest =>
        before (codeEscape? [a, b, c, d, e, f, g, h]) (scanBasicLines .closed rest)
      | '\\', c :: rest =>
        if c = ' ' || c = '\t' || c = '\r' || c = '\n' then scanBasicLines .beforeBreak (c :: rest)
        else before (shortEscape? c) (scanBasicLines .closed rest)
      | c, rest => if isPlain c then before c (scanBasicLines .closed rest) else none
  | [] => none

/-- A string on one line, after its single quote. -/
def scanLiteral : List Char → Option (List Char × List Char)
  | '\'' :: rest => some ([], rest)
  | c :: rest => if isPlain c then before c (scanLiteral rest) else none
  | [] => none

/-- A string on several lines, after its three single quotes. -/
def scanLiteralLines : List Char → Option (List Char × List Char)
  | '\'' :: '\'' :: '\'' :: '\'' :: '\'' :: rest => some (['\'', '\''], rest)
  | '\'' :: '\'' :: '\'' :: '\'' :: rest => some (['\''], rest)
  | '\'' :: '\'' :: '\'' :: rest => some ([], rest)
  | '\r' :: '\n' :: rest => before '\r' (before '\n' (scanLiteralLines rest))
  | c :: rest => if isPlain c || c = '\n' then before c (scanLiteralLines rest) else none
  | [] => none

/-- The string that a text begins with on one line. -/
def scanOnLine : List Char → Option (List Char × List Char)
  | '"' :: rest => scanBasic rest
  | '\'' :: rest => scanLiteral rest
  | _ => none

/-- The string that a text begins with.  A break right after three quotes is no
part of it. -/
def scanQuotation : List Char → Option (List Char × List Char)
  | '"' :: '"' :: '"' :: rest => scanBasicLines .closed ((skipBreak? rest).getD rest)
  | '\'' :: '\'' :: '\'' :: rest => scanLiteralLines ((skipBreak? rest).getD rest)
  | rest => scanOnLine rest

end OpManifest.Toml
