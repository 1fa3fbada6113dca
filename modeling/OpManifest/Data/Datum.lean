import OpManifest.Decimal.Binary64
import OpManifest.Text.Quoted

/-!
# Data

Self-describing data, as the formats JSON and TOML and the literals of a
directive deliver it.  A text that breaks off in the middle still delivers the
data before the fault, so that a reader finds the first fault of either kind.
-/

namespace OpManifest.Data

open Decimal (Binary64)

/-- A piece of data.  The members of a mapping keep their order and may repeat.
A mapping is cut if its text is at fault after the members; `broken` is data
whose text is at fault, and `unusable` is data that can be passed over but has
no value.  A number that no floating point number is large enough for is
`oversized`. -/
inductive Datum where
  | null
  | boolean (value : Bool)
  | integer (value : Int)
  | float (value : Binary64)
  | oversized
  | text (value : String)
  | sequence (items : List Datum)
  | mapping (members : List (String × Datum)) (cut : Bool)
  | broken
  | unusable
  deriving Inhabited, Repr

namespace Datum

mutual

/-- The text of the data is free of faults, so that it can be passed over. -/
def isWhole : Datum → Bool
  | .sequence items => areWhole items
  | .mapping members cut => !cut && membersAreWhole members
  | .broken => false
  | _ => true

/-- All items can be passed over. -/
def areWhole : List Datum → Bool
  | [] => true
  | item :: items => item.isWhole && areWhole items

/-- All members can be passed over. -/
def membersAreWhole : List (String × Datum) → Bool
  | [] => true
  | (_, item) :: members => item.isWhole && membersAreWhole members

end

/-- A floating point number with a point, as messages show it. -/
def floatText (value : Binary64) : String :=
  match value with
  | .finite .. => if value.text.contains '.' then value.text else value.text ++ ".0"
  | _ => value.text

/-- An integer as messages show it; one that needs more than 64 bits is shown
with its width. -/
def integerText (value : Int) : String :=
  "integer `" ++ toString value ++ "`" ++
    (if -0x8000000000000000 ≤ value && value < 0x10000000000000000 then ""
    else if -0x80000000000000000000000000000000 ≤ value &&
      value < 0x80000000000000000000000000000000 then " as i128"
    else " as u128")

/-- What was found, as messages name it. -/
def describe : Datum → String
  | .null => "null"
  | .boolean value => if value then "boolean `true`" else "boolean `false`"
  | .integer value => integerText value
  | .float value => "floating point `" ++ floatText value ++ "`"
  | .text value => "string " ++ Text.quote value
  | .sequence _ => "sequence"
  | .mapping .. => "map"
  | .oversized | .broken | .unusable => "nothing"

end Datum

end OpManifest.Data
