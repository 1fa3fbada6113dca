import OpManifest.Calendar
import OpManifest.Text.Digit

/-!
# Dates and times

A date, a time of day, or both with an offset, and their text in one spelling.
-/

namespace OpManifest.Toml

open Calendar (daysIn padded)
open Text (digitsValue)

/-- The number that the text begins with, written with so many digits. -/
def takeNumber? (count : Nat) (cs : List Char) : Option (Nat × List Char) :=
  let digits := cs.take count
  if digits.length = count && digits.all Char.isDigit then
    some (digitsValue digits, cs.drop count)
  else none

/-- The text after the given character. -/
def takeMark? (mark : Char) : List Char → Option (List Char)
  | c :: rest => if c = mark then some rest else none
  | [] => none

/-- The date that the text begins with, in one spelling. -/
def takeDate? (cs : List Char) : Option (List Char × List Char) := do
  let (year, cs) ← takeNumber? 4 cs
  let (month, cs) ← takeNumber? 2 (← takeMark? '-' cs)
  let (day, cs) ← takeNumber? 2 (← takeMark? '-' cs)
  if 1 ≤ month && month ≤ 12 && 1 ≤ day && day ≤ daysIn year month then
    return (padded 4 year ++ '-' :: padded 2 month ++ '-' :: padded 2 day, cs)
  else none

/-- The part of a second after its point, without zeros at its end.  It has at
most nine digits. -/
def takePart? : List Char → Option (List Char × List Char)
  | '.' :: cs =>
    let digits := cs.takeWhile Char.isDigit
    let kept := ((digits.take 9).reverse.dropWhile (· = '0')).reverse
    if digits.isEmpty then none
    else some (if kept.isEmpty then [] else '.' :: kept, cs.dropWhile Char.isDigit)
  | cs => some ([], cs)

/-- The seconds of a time; without them the time is a full minute. -/
def takeSeconds? : List Char → Option (List Char × List Char)
  | ':' :: cs => do
    let (second, cs) ← takeNumber? 2 cs
    let (part, cs) ← takePart? cs
    if second ≤ 60 then return (padded 2 second ++ part, cs) else none
  | cs => some (padded 2 0, cs)

/-- The time of day that the text begins with, in one spelling. -/
def takeTime? (cs : List Char) : Option (List Char × List Char) := do
  let (hour, cs) ← takeNumber? 2 cs
  let (minute, cs) ← takeNumber? 2 (← takeMark? ':' cs)
  let (seconds, cs) ← takeSeconds? cs
  if hour ≤ 23 && minute ≤ 59 then
    return (padded 2 hour ++ ':' :: padded 2 minute ++ ':' :: seconds, cs)
  else none

/-- The offset of a time, which ends the text. -/
def offset? : List Char → Option (List Char)
  | [] => some []
  | c :: cs =>
    if c = 'Z' || c = 'z' then if cs.isEmpty then some ['Z'] else none
    else if c = '+' || c = '-' then do
      let (hour, cs) ← takeNumber? 2 cs
      let (minute, cs) ← takeNumber? 2 (← takeMark? ':' cs)
      if hour ≤ 23 && minute ≤ 59 && cs.isEmpty then
        return c :: padded 2 hour ++ ':' :: padded 2 minute
      else none
    else none

/-- The date or time that is spelled, in one spelling. -/
def moment? (cs : List Char) : Option String :=
  match takeDate? cs with
  | some (date, []) => some (.ofList date)
  | some (date, c :: cs) =>
    if c = 'T' || c = 't' || c = ' ' then do
      let (time, cs) ← takeTime? cs
      return .ofList (date ++ 'T' :: time ++ (← offset? cs))
    else none
  | none => do
    let (time, cs) ← takeTime? cs
    if cs.isEmpty then return .ofList time else none

end OpManifest.Toml
