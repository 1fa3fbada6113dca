/-!
# Glob patterns

The pieces of a pattern for paths.  A pattern is read one character at a time;
what two stars mean depends on the characters around them, so they are held
back until the next character is known.
-/

namespace OpManifest.Glob

/-- A piece of a pattern.  The three recursive pieces are two stars at the
start, at the end and between slashes. -/
inductive Piece where
  | literal (c : Char)
  | one
  | many
  | anyBase
  | anyRest
  | anyBetween
  | oneOf (negated : Bool) (ranges : List (Char × Char))
  | group (branches : List (List Piece))
  deriving Inhabited, Repr

/-- Why a text is no pattern. -/
inductive PatternError where
  | unclosedClass
  | invalidRange (first last : Char)
  | unopenedGroup
  | unclosedGroup
  | danglingEscape
  deriving DecidableEq, Repr

/-- The text of the error. -/
def PatternError.message : PatternError → String
  | .unclosedClass => "unclosed character class; missing ']'"
  | .invalidRange first last =>
    "invalid range; '" ++ first.toString ++ "' > '" ++ last.toString ++ "'"
  | .unopenedGroup =>
    "unopened alternate group; missing '\x7b' (maybe escape '\x7d' with '[\x7d]'?)"
  | .unclosedGroup =>
    "unclosed alternate group; missing '\x7d' (maybe escape '\x7b' with '[\x7b]'?)"
  | .danglingEscape => "dangling '\\'"

/-- A group that is still open: the pieces before it and its finished branches,
both with the last one first. -/
structure OpenGroup where
  before : List Piece
  branches : List (List Piece)

/-- What the next character belongs to.  Stars are held back together with the
character before them. -/
inductive Mode where
  | plain
  | escape
  | star (previous : Option Char)
  | twoStars (previous : Option Char)
  | classStart
  | inClass (negated : Bool) (ranges : List (Char × Char)) (joining : Bool)

/-- A pattern that has been read in part: the pieces of the current branch and
the ranges of a class have the last one first, the groups the innermost. -/
structure Progress where
  mode : Mode
  previous : Option Char
  pieces : List Piece
  groups : List OpenGroup

namespace Progress

/-- Nothing has been read. -/
def start : Progress := ⟨.plain, none, [], []⟩

/-- Adds a piece to the current branch. -/
def push (p : Progress) (piece : Piece) : Progress := { p with pieces := piece :: p.pieces }

/-- Two stars without a meaning of their own. -/
def pushMany (p : Progress) : Progress := (p.push .many).push .many

/-- Two stars after a slash take the place of the slash.  Several in a row are
like one. -/
def replaceLast (p : Progress) (piece : Piece) : Progress :=
  match p.pieces with
  | .anyBase :: _ | .anyRest :: _ => p
  | pieces => { p with pieces := piece :: pieces.drop 1 }

/-- Reads two stars between two characters.  Says whether they take the second
one in. -/
def closeStars (p : Progress) (previous next : Option Char) : Progress × Bool :=
  let atSlash := previous = some '/'
  let atBranch := !p.groups.isEmpty && (previous = some ',' || previous = some '{')
  if p.pieces.isEmpty then
    if next = none || next = some '/' then (p.push .anyBase, true) else (p.pushMany, false)
  else if !atSlash && !atBranch then (p.pushMany, false)
  else if next = none then (p.replaceLast .anyRest, true)
  else if !p.groups.isEmpty && (next = some ',' || next = some '}') then
    (p.replaceLast .anyRest, false)
  else if next = some '/' then (p.replaceLast .anyBetween, true)
  else (p.pushMany, false)

/-- Reads a character that belongs to nothing before it. -/
def readPlain (p : Progress) (c : Char) : Except PatternError Progress :=
  match c, p.groups with
  | '?', _ => .ok (p.push .one)
  | '*', _ => .ok { p with mode := .star p.previous }
  | '[', _ => .ok { p with mode := .classStart }
  | '\\', _ => .ok { p with mode := .escape }
  | '{', groups => .ok { p with pieces := [], groups := ⟨p.pieces, []⟩ :: groups }
  | '}', [] => .error .unopenedGroup
  | '}', group :: groups =>
    let branches := (p.pieces.reverse :: group.branches).reverse
    .ok { p with pieces := .group branches :: group.before, groups }
  | ',', group :: groups =>
    let group := { group with branches := p.pieces.reverse :: group.branches }
    .ok { p with pieces := [], groups := group :: groups }
  | c, _ => .ok (p.push (.literal c))

/-- Reads a character of a class.  A bracket ends the class and a dash joins
two characters, except at the start. -/
def readClass (p : Progress) (negated : Bool) (ranges : List (Char × Char)) (joining : Bool)
    (c : Char) : Except PatternError Progress :=
  match ranges with
  | [] => .ok { p with mode := .inClass negated [(c, c)] false }
  | (first, _) :: others =>
    if c = ']' then
      let ranges := if joining then ('-', '-') :: ranges else ranges
      .ok { p with mode := .plain, pieces := .oneOf negated ranges.reverse :: p.pieces }
    else if joining then
      if c < first then .error (.invalidRange first c)
      else .ok { p with mode := .inClass negated ((first, c) :: others) false }
    else if c = '-' then .ok { p with mode := .inClass negated ranges true }
    else .ok { p with mode := .inClass negated ((c, c) :: ranges) false }

/-- Reads one character. -/
def read (p : Progress) (c : Char) : Except PatternError Progress := do
  let plain := { p with mode := .plain }
  let next ← match p.mode with
    | .plain => p.readPlain c
    | .escape => .ok (plain.push (.literal c))
    | .star previous =>
      if c = '*' then .ok { p with mode := .twoStars previous }
      else (plain.push .many).readPlain c
    | .twoStars previous =>
      let (closed, takesNext) := plain.closeStars previous c
      if takesNext then .ok closed else closed.readPlain c
    | .classStart =>
      if c = '!' || c = '^' then .ok { p with mode := .inClass true [] false }
      else p.readClass false [] false c
    | .inClass negated ranges joining => p.readClass negated ranges joining c
  return { next with previous := some c }

/-- The pieces of the whole pattern, at its end. -/
def finish (p : Progress) : Except PatternError (List Piece) := do
  let p ← match p.mode with
    | .plain => .ok p
    | .escape => .error .danglingEscape
    | .star _ => .ok (p.push .many)
    | .twoStars previous => .ok (p.closeStars previous none).1
    | .classStart | .inClass .. => .error .unclosedClass
  if p.groups.isEmpty then return p.pieces.reverse else throw .unclosedGroup

end Progress

/-- The pieces of a pattern. -/
def piecesOf (pattern : String) : Except PatternError (List Piece) := do
  (← pattern.toList.foldlM Progress.read Progress.start).finish

end OpManifest.Glob
