/-!
# Words in text

Whether a word occurs anywhere in a text.
-/

namespace OpManifest.Text

/-- The word occurs in the text. -/
def hasInfix (word : List Char) : List Char → Bool
  | [] => word.isEmpty
  | c :: rest => word.isPrefixOf (c :: rest) || hasInfix word rest

theorem hasInfix_iff {word text : List Char} : hasInfix word text = true ↔ word <:+: text := by
  induction text with
  | nil => simp [hasInfix]
  | cons c rest ih => simp [hasInfix, ih, List.infix_cons_iff]

end OpManifest.Text
