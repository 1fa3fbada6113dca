/-!
# Splitting text

A text cut at a separator into the pieces between the separators.
-/

namespace OpManifest.Text

/-- The pieces between the separators; there is always one piece more than
there are separators. -/
def split (separator : Char) : List Char → List (List Char)
  | [] => [[]]
  | c :: rest =>
    if c = separator then [] :: split separator rest
    else
      match split separator rest with
      | [] => [[c]]
      | piece :: others => (c :: piece) :: others

end OpManifest.Text
