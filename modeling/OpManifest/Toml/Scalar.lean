import OpManifest.Data.Datum
import OpManifest.Text.Digit
import OpManifest.Text.Split
import OpManifest.Toml.Moment

/-!
# Scalars without quotes

Truth values, numbers, dates and times.
-/

namespace OpManifest.Toml

open Data (Datum)
open Decimal (Binary64)
open Text (hexNumber? digitsValue)

/-- The sign of a number, and what follows it. -/
def takeSign : List Char → Option Char × List Char
  | c :: rest => if c = '+' || c = '-' then (some c, rest) else (none, c :: rest)
  | [] => (none, [])

/-- Digits in which underscores may stand between two digits. -/
def digitRun? (isDigit : Char → Bool) (cs : List Char) : Option (List Char) :=
  let runs := Text.split '_' cs
  if runs.all fun run => !run.isEmpty && run.all isDigit then some runs.flatten else none

/-- Decimal digits without a leading zero. -/
def wholeRun? (cs : List Char) : Option (List Char) := do
  let digits ← digitRun? Char.isDigit cs
  if digits.head? = some '0' && 1 < digits.length then none else return digits

/-- The value of digits to a base of at most sixteen. -/
def valueInBase (base : Nat) (digits : List Char) : Nat :=
  digits.foldl (fun value c => value * base + (Text.hexValue? c).getD 0) 0

/-- The character is a digit to the base. -/
def isDigitIn (base : Nat) (c : Char) : Bool :=
  match Text.hexValue? c with
  | some value => value < base
  | none => false

/-- An integer.  The bases other than ten have a mark and no sign. -/
def integer? (cs : List Char) : Option Int :=
  let inBase (base : Nat) (cs : List Char) : Option Int :=
    (digitRun? (isDigitIn base) cs).map fun digits => (valueInBase base digits : Int)
  match cs with
  | '0' :: 'x' :: rest => inBase 16 rest
  | '0' :: 'o' :: rest => inBase 8 rest
  | '0' :: 'b' :: rest => inBase 2 rest
  | cs =>
    let (sign, rest) := takeSign cs
    (wholeRun? rest).map fun digits =>
      if sign = some '-' then -(digitsValue digits : Int) else digitsValue digits

/-- The digits after the point of a number; without a point there are none. -/
def partRun? : List Char → Option (List Char)
  | '.' :: rest => digitRun? Char.isDigit rest
  | [] => some []
  | _ => none

/-- The value of the exponent after its letter; without a letter it is zero. -/
def exponent? : List Char → Option Int
  | _ :: rest =>
    let (sign, rest) := takeSign rest
    (fun digits =>
      if sign = some '-' then -(digitsValue digits : Int) else digitsValue digits)
      <$> digitRun? Char.isDigit rest
  | [] => some 0

/-- A floating point number.  One out of the range of the format is known to be
too large. -/
def float? (cs : List Char) : Option Datum :=
  let (sign, rest) := takeSign cs
  let negative := sign = some '-'
  if rest = "inf".toList then some (.float (.infinite negative))
  else if rest = "nan".toList then some (.float .notANumber)
  else do
    let isLetter (c : Char) : Bool := c = 'e' || c = 'E'
    let mantissa := rest.takeWhile (!isLetter ·)
    let whole ← wholeRun? (mantissa.takeWhile (· ≠ '.'))
    let part ← partRun? (mantissa.dropWhile (· ≠ '.'))
    let exponent ← exponent? (rest.dropWhile (!isLetter ·))
    match Binary64.ofFraction ⟨negative, digitsValue (whole ++ part), exponent - part.length⟩ with
    | .infinite _ => return .oversized
    | value => return .float value

/-- The name of the only member of a date or time as data. -/
def momentMember : String := "$__toml_private_datetime"

/-- A scalar that is spelled without quotes. -/
def scalar? (cs : List Char) : Option Datum :=
  if cs = "true".toList then some (.boolean true)
  else if cs = "false".toList then some (.boolean false)
  else
    match integer? cs with
    | some value => some (.integer value)
    | none =>
      match moment? cs with
      | some text => some (.mapping [(momentMember, .text text)] false)
      | none => float? cs

end OpManifest.Toml
