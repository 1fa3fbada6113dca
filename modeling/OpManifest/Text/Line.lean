import OpManifest.Text.Split

/-!
# Lines

A line ends with a line feed, or with a carriage return and a line feed.  The
ending is no part of the line, and a text that ends with a line feed has no
empty line after it.
-/

namespace OpManifest.Text

/-- The lines of a text. -/
def lines (text : List Char) : List (List Char) :=
  let pieces := split '\n' text
  let ended := pieces.dropLast.map fun piece =>
    if piece.getLast? = some '\r' then piece.dropLast else piece
  match pieces.getLast? with
  | some [] | none => ended
  | some unended => ended ++ [unended]

end OpManifest.Text
