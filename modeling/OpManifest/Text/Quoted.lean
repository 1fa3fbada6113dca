import OpManifest.Text.Hidden

/-!
# Quoted text

A text as messages show it: in double quotes, on one line, with every hidden
character written as an escape.
-/

namespace OpManifest.Text

/-- One character between the quotes. -/
def quoteChar (c : Char) : List Char :=
  match c with
  | '"' => ['\\', '"']
  | '\\' => ['\\', '\\']
  | '\n' => ['\\', 'n']
  | '\r' => ['\\', 'r']
  | '\t' => ['\\', 't']
  | '\x00' => ['\\', '0']
  | c =>
    if isHidden c then ['\\', 'u', '\x7b'] ++ Nat.toDigits 16 c.toNat ++ ['\x7d'] else [c]

/-- The text in quotes. -/
def quote (text : String) : String :=
  "\"" ++ .ofList (text.toList.flatMap quoteChar) ++ "\""

end OpManifest.Text
