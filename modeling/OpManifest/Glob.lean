import OpManifest.Glob.Pattern
import OpManifest.Glob.Regular

/-!
# Globs

A glob selects paths by their spelling, byte for byte.  Stars and question
marks stay within one component; two stars go across components.
-/

namespace OpManifest.Glob

/-- Any byte but a slash. -/
def inComponent : Regular := .byte (.allBut '/'.toNat.toUInt8)

/-- A slash. -/
def slash : Regular := .byte (.single '/'.toNat.toUInt8)

/-- Any text. -/
def anything : Regular := .star (.byte .all)

/-- The bytes of a character. -/
def bytesOf (c : Char) : List UInt8 := (String.utf8EncodeChar c)

/-- One text and no other. -/
def exactly (bytes : List UInt8) : Regular :=
  (bytes.map fun b => Regular.byte (.single b)).foldr Regular.append .empty

/-- The ranges of bytes that a range of characters stands for.  A character of
several bytes gives each of them, and a dash joins the bytes next to it. -/
def byteRanges (range : Char × Char) : List (UInt8 × UInt8) :=
  let single (b : UInt8) := (b, b)
  if range.1 = range.2 then (bytesOf range.1).map single
  else
    match (bytesOf range.1).reverse, bytesOf range.2 with
    | last :: before, first :: after =>
      before.reverse.map single ++ (last, first) :: after.map single
    | _, _ => []

mutual

/-- The expression for a piece; a group with empty branches only has none. -/
def Piece.regular? : Piece → Option Regular
  | .literal c => some (exactly (bytesOf c))
  | .one => some inComponent
  | .many => some (.star inComponent)
  | .anyBase => some (.either (.either .empty slash) (.append anything slash))
  | .anyRest => some (.append slash anything)
  | .anyBetween => some (.either slash (.append slash (.append anything slash)))
  | .oneOf negated ranges => some (.byte ⟨negated, ranges.flatMap byteRanges⟩)
  | .group branches => branchesRegular? branches

/-- The expression for pieces one after the other. -/
def piecesRegular? : List Piece → Option Regular
  | [] => none
  | piece :: pieces =>
    match piece.regular?, piecesRegular? pieces with
    | some first, some second => some (.append first second)
    | some first, none => some first
    | none, second => second

/-- The expression for the branches of a group.  Empty branches do not
count. -/
def branchesRegular? : List (List Piece) → Option Regular
  | [] => none
  | branch :: branches =>
    match piecesRegular? branch, branchesRegular? branches with
    | some first, some second => some (.either first second)
    | some first, none => some first
    | none, second => second

end

/-- The expression for a whole pattern.  Two stars alone select every path. -/
def regularOf (pieces : List Piece) : Regular :=
  match pieces with
  | [.anyBase] => anything
  | pieces => (piecesRegular? pieces).getD .empty

end OpManifest.Glob

namespace OpManifest

open Glob (Regular)

/-- A pattern that selects paths. -/
structure Glob where
  pattern : String
  expression : Regular

/-- Why a text cannot be used as a glob. -/
structure GlobError where
  pattern : String
  cause : Glob.PatternError
  deriving DecidableEq, Repr

namespace GlobError

/-- The text of the error. -/
def message (e : GlobError) : String :=
  "Invalid include pattern `" ++ e.pattern ++ "`: error parsing glob '" ++ e.pattern ++ "': "
    ++ e.cause.message

end GlobError

namespace Glob

/-- The glob with the given pattern. -/
def ofPattern (pattern : String) : Except GlobError Glob :=
  match piecesOf pattern with
  | .ok pieces => .ok ⟨pattern, regularOf pieces⟩
  | .error cause => .error ⟨pattern, cause⟩

/-- The glob selects the path. -/
def selects (glob : Glob) (path : String) : Bool :=
  glob.expression.accepts path.toUTF8.toList

end Glob

end OpManifest
