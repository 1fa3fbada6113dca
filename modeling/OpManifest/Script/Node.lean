/-!
# The bracket structure of scripts

A script as far as it matters for finding calls: its words and marks, its
literals, and what stands between brackets.  Comments, regular expressions and
the text of elements and templates are no part of it.
-/

namespace OpManifest.Script

/-- What encloses a group of nodes. -/
inductive Bracket where
  | round
  | square
  | brace
  | element
  | substitution
  deriving DecidableEq, Repr

/-- How a template begins: its tag may be on a line before, and a semicolon may
follow the backtick. -/
structure Opening where
  afterLineEnd : Bool
  beforeSemicolon : Bool
  deriving DecidableEq, Repr

/-- A node of the bracket structure, and where it begins and ends, in bytes.  The
nodes of a template are its substitutions. -/
inductive Node where
  | word (start : Nat) (text : String)
  | mark (text : String)
  | string (start stop : Nat)
  | template (opening : Opening) (start stop : Nat) (nodes : List Node) (closed : Bool)
  | group (bracket : Bracket) (start stop : Nat) (nodes : List Node) (closed : Bool)
  deriving Repr, Inhabited

end OpManifest.Script
