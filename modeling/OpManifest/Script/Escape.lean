import OpManifest.Text.Digit

/-!
# Escapes in script literals

The text that the content of a string or template literal stands for.  An
escape that does not name a character stays as it is written.
-/

namespace OpManifest.Script

open Text (hexNumber? charOfCode?)

/-- The characters that a backslash before a letter or a digit stands for. -/
def controlEscape : Char → Option Char
  | 'n' => some '\n'
  | 't' => some '\t'
  | 'r' => some '\r'
  | 'b' => some '\x08'
  | 'f' => some '\x0c'
  | 'v' => some '\x0b'
  | '0' => some '\x00'
  | _ => none

/-- The character whose code the hexadecimal digits give; a plus sign may stand
before them. -/
def charOfDigits? (digits : List Char) : Option Char := do
  charOfCode? (← hexNumber? (match digits with
    | '+' :: digits => digits
    | digits => digits))

/-- The text that the content of a literal stands for. -/
def unescape (cs : List Char) : List Char :=
  match cs with
  | [] => []
  | ['\\'] => ['\\']
  | '\\' :: '\n' :: rest => unescape rest
  | '\\' :: '\r' :: '\n' :: rest => unescape rest
  | '\\' :: '\r' :: rest => unescape rest
  | '\\' :: 'x' :: rest =>
    let digits := rest.take 2
    (match charOfDigits? digits with
      | some c => [c]
      | none => '\\' :: 'x' :: digits) ++ unescape (rest.drop 2)
  | '\\' :: 'u' :: '{' :: rest =>
    let digits := rest.takeWhile (· ≠ '}')
    (match charOfDigits? digits with
      | some c => [c]
      | none => '\\' :: 'u' :: '{' :: digits ++ ['}'])
      ++ unescape ((rest.dropWhile (· ≠ '}')).drop 1)
  | '\\' :: 'u' :: rest =>
    let digits := rest.take 4
    (match charOfDigits? digits with
      | some c => [c]
      | none => '\\' :: 'u' :: digits) ++ unescape (rest.drop 4)
  | '\\' :: c :: rest => (controlEscape c).getD c :: unescape rest
  | c :: rest => c :: unescape rest
termination_by cs.length
decreasing_by
  all_goals simp only [List.length_cons, List.length_drop]
  all_goals first
    | omega
    | have := (List.dropWhile_sublist (· ≠ '}') (l := rest)).length_le
      omega

end OpManifest.Script
