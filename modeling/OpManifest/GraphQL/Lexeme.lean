import OpManifest.GraphQL.Token

/-!
# Lexemes

A text as the sequence of its tokens with their positions.  Blanks, commas,
byte order marks and comments stand between tokens and mean nothing.
-/

namespace OpManifest.GraphQL

/-- A place in a text; lines and columns count from one. -/
structure Position where
  line : Nat
  column : Nat
  deriving DecidableEq, Repr, Inhabited

namespace Position

/-- The position of the first character. -/
def start : Position := ⟨1, 1⟩

/-- The first column of the next line. -/
def nextLine (p : Position) : Position := ⟨p.line + 1, 1⟩

/-- The position after a token.  Inside a token every character is one column,
and a line feed begins a line. -/
def advance (p : Position) (text : List Char) : Position :=
  text.foldl (fun p c => if c = '\n' then p.nextLine else ⟨p.line, p.column + 1⟩) p

/-- The position after a character that means nothing.  A tabulator is eight
columns wide; a carriage return and a byte order mark have no width. -/
def skip (p : Position) (c : Char) : Position :=
  if c = '\n' then p.nextLine
  else if c = '\t' then ⟨p.line, p.column + 8⟩
  else if c = ' ' || c = ',' then ⟨p.line, p.column + 1⟩
  else p

end Position

/-- A token and where it begins. -/
structure Lexeme where
  token : Token
  position : Position
  deriving DecidableEq, Repr

/-- A text cut into tokens.  The text is complete if the tokens reach to its
end; otherwise no token begins at the position where they stop. -/
structure Lexemes where
  lexemes : List Lexeme
  stop : Position
  complete : Bool
  deriving DecidableEq, Repr

namespace Lexemes

/-- A character that means nothing between tokens. -/
def isIgnored (c : Char) : Bool := " \t\n\r,\uFEFF".toList.contains c

/-- A comment runs up to one of these characters and includes it. -/
def endsComment (c : Char) : Bool := c = '\n' || c = '\r'

/-- Cuts a text that begins at the position. -/
def scan (p : Position) (cs : List Char) : Lexemes :=
  match cs with
  | [] => ⟨[], p, true⟩
  | c :: rest =>
    if isIgnored c then scan (p.skip c) rest
    else if c = '#' then
      match _h : rest.dropWhile (!endsComment ·) with
      | [] => ⟨[], p, true⟩
      | _ :: tail => scan p.nextLine tail
    else
      match h : Token.scan (c :: rest) with
      | none => ⟨[], p, false⟩
      | some (token, rest') =>
        let following := scan (p.advance ((c :: rest).take (rest.length + 1 - rest'.length))) rest'
        { following with lexemes := ⟨token, p⟩ :: following.lexemes }
termination_by cs.length
decreasing_by
  · simp
  · have := Token.length_dropWhile_le (!endsComment ·) rest
    rw [_h] at this
    simp only [List.length_cons] at this ⊢
    omega
  · exact Token.scan_length_lt h

/-- The lexemes of a text. -/
def ofString (text : String) : Lexemes := scan .start text.toList

end Lexemes

end OpManifest.GraphQL
