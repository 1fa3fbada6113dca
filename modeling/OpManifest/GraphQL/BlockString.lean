import OpManifest.Text.Blank
import OpManifest.Text.Line

/-!
# Block strings

The text that a block string stands for.  Blank lines at both ends are
dropped.  The indent that all other lines share is removed; the first line is
neither counted nor changed.
-/

namespace OpManifest.GraphQL.BlockString

open Text (isBlank lines)

/-- The bytes of the blanks that a line begins with. -/
def indent (line : List Char) : Nat :=
  (String.ofList (line.takeWhile isBlank)).utf8ByteSize

/-- Removes the characters that lie in the first `size` bytes. -/
def dropBytes : Nat → List Char → List Char
  | 0, line => line
  | _, [] => []
  | size, c :: line => dropBytes (size - c.utf8Size) line

/-- Removes an indent; a line that is shorter than the indent is kept. -/
def unindent (size : Nat) (line : List Char) : List Char :=
  if (String.ofList line).utf8ByteSize < size then line else dropBytes size line

/-- Drops the blank lines at both ends. -/
def withoutBlankEnds (text : List (List Char)) : List (List Char) :=
  ((text.dropWhile (·.all isBlank)).reverse.dropWhile (·.all isBlank)).reverse

/-- The text of a block string whose raw content is given. -/
def ofRaw (raw : List Char) : List Char :=
  match lines raw with
  | [] => []
  | first :: others =>
    let indents := (others.filter fun line => !line.all isBlank).map indent
    let others := match indents.min? with
      | some common => others.map (unindent common)
      | none => others
    List.intercalate ['\n'] (withoutBlankEnds (first :: others))

end OpManifest.GraphQL.BlockString
