import OpManifest.Script.Scanner
import OpManifest.Script.SyntaxTree
import OpManifest.Text.Slice

/-!
# Calls of a script

The syntax tree of a script, as far as calls of plain names go.  Nodes are taken
one after the other, and a template or a parenthesis that ends a call takes its
callee back from the pieces that stand before it.

A literal that is only a part of an argument is not a child of the argument
list: it lies in a node of its own.
-/

namespace OpManifest.Script

/-- A word or a mark that no tree has taken up, or a tree. -/
inductive Piece where
  | word (start : Nat) (text : String)
  | mark (text : String)
  | built (tree : SyntaxTree)

namespace Piece

/-- The trees among pieces. -/
def trees (pieces : List Piece) : List SyntaxTree :=
  pieces.filterMap fun
    | .built tree => some tree
    | .word .. | .mark _ => none

/-- Passes over type arguments, from their closing bracket backwards.  The answer
is what stands in them, in its order, and what stands before their opening
bracket. -/
def passTypeArguments (inside : List Piece) : Nat → List Piece → Option (List Piece × List Piece)
  | depth, .mark ">" :: before => passTypeArguments (.mark ">" :: inside) (depth + 1) before
  | 0, .mark "<" :: before => some (inside, before)
  | depth + 1, .mark "<" :: before => passTypeArguments (.mark "<" :: inside) depth before
  | _, .mark ";" :: _ => none
  | depth, piece :: before => passTypeArguments (piece :: inside) depth before
  | _, [] => none

/-- The type arguments that the pieces end with, if there are any, and what stands
before them. -/
def typeArguments (language : Language) (before : List Piece) : List Piece × List Piece :=
  match before with
  | .mark ">" :: inner =>
    if language.hasTypes then (passTypeArguments [] 0 inner).getD ([], before) else ([], before)
  | before => ([], before)

/-- What comes after the pieces is the name of a member. -/
def endWithPoint : List Piece → Bool
  | .mark "." :: _ | .mark "?." :: _ => true
  | _ => false

/-- The pieces end with the operator `new`. -/
def endWithNew : List Piece → Bool
  | .word _ "new" :: before => !endWithPoint before
  | _ => false

/-- The pieces without a question mark before a parenthesis. -/
def withoutOption : List Piece → List Piece
  | .mark "?." :: before => before
  | before => before

end Piece

/-- What a call has before its arguments, and the pieces before the call. -/
structure Callee where
  name : SyntaxTree
  typeArguments : List SyntaxTree
  before : List Piece

namespace Callee

/-- The callee that the pieces end with: a name of its own, not a member.  In
parentheses stand the arguments of a construction if there is a `new` before the
name. -/
def ofPieces? (language : Language) (inParentheses : Bool) (pieces : List Piece) : Option Callee :=
  let (inside, before) := Piece.typeArguments language pieces
  match if inParentheses then Piece.withoutOption before else before with
  | .word start text :: before =>
    if Piece.endWithPoint before || (inParentheses && Piece.endWithNew before) then none
    else some {
      name := ⟨.identifier, some .callee, start, start + text.utf8ByteSize, []⟩
      typeArguments := Piece.trees inside
      before }
  | _ => none

/-- The call with the given arguments. -/
def call (callee : Callee) (arguments : SyntaxTree) : SyntaxTree where
  kind := .call
  start := callee.name.start
  stop := arguments.stop
  children := callee.name :: callee.typeArguments ++ [arguments]

end Callee

namespace SyntaxTree

/-- What stands between these pieces and these nodes is an argument on its own. -/
def isArgument (before : List Piece) (after : List Node) : Bool :=
  (match before with
    | [] | .mark "," :: _ => true
    | _ => false) &&
  (match after with
    | [] | .mark "," :: _ => true
    | _ => false)

/-- A literal, or the node that it is a part of. -/
def ofLiteral (whole : Bool) (literal : SyntaxTree) : SyntaxTree :=
  if whole then literal else ⟨.other, none, literal.start, literal.stop, [literal]⟩

/-- The pieces with a template, and with the call that it ends.  A template that is
never closed ends no call, unless a semicolon follows the backtick: then the call
ends with the backtick. -/
def addTemplate (language : Language) (before : List Piece) (whole : Bool) (opening : Opening)
    (start stop : Nat) (substitutions : List SyntaxTree) (closed : Bool) : List Piece :=
  match if opening.afterLineEnd then none else Callee.ofPieces? language false before with
  | some callee =>
    if closed then
      .built (callee.call ⟨.template, some .arguments, start, stop, substitutions⟩) :: callee.before
    else if opening.beforeSemicolon then
      substitutions.reverse.map .built
        ++ .built (callee.call ⟨.template, some .arguments, start, start + 1, []⟩) :: callee.before
    else .built ⟨.other, none, start, stop, substitutions⟩ :: before
  | none =>
    if closed then .built (ofLiteral whole ⟨.template, none, start, stop, substitutions⟩) :: before
    else .built ⟨.other, none, start, stop, substitutions⟩ :: before

/-- The pieces with a group, and with the call whose arguments it holds. -/
def addGroup (language : Language) (before : List Piece) (bracket : Bracket) (start stop : Nat)
    (children : List SyntaxTree) (closed : Bool) : List Piece :=
  match if bracket = .round && closed then Callee.ofPieces? language true before else none with
  | some callee =>
    .built (callee.call ⟨.arguments, some .arguments, start, stop, children⟩) :: callee.before
  | none =>
    let kind := if bracket = .substitution then .substitution else .other
    .built ⟨kind, none, start, stop, children⟩ :: before

mutual

/-- The pieces with a node; `whole` says of a literal that it is an argument on its
own. -/
def addNode (language : Language) (before : List Piece) (whole : Bool) : Node → List Piece
  | .word start text => .word start text :: before
  | .mark text => .mark text :: before
  | .string start stop => .built (ofLiteral whole ⟨.string, none, start, stop, []⟩) :: before
  | .template opening start stop nodes closed =>
    addTemplate language before whole opening start stop
      (Piece.trees (addNodes language [] nodes).reverse) closed
  | .group bracket start stop nodes closed =>
    addGroup language before bracket start stop
      (Piece.trees (addNodes language [] nodes).reverse) closed

/-- The pieces with nodes, the last piece first. -/
def addNodes (language : Language) (before : List Piece) : List Node → List Piece
  | [] => before
  | node :: after =>
    addNodes language (addNode language before (isArgument before after) node) after

end

/-- The trees of nodes that stand side by side. -/
def ofNodes (language : Language) (nodes : List Node) : List SyntaxTree :=
  Piece.trees (addNodes language [] nodes).reverse

/-- The syntax tree of a script. -/
def ofText (language : Language) (text : String) : SyntaxTree :=
  ⟨.other, none, 0, Text.byteCount text.toList, ofNodes language (Node.ofText language text)⟩

end SyntaxTree

end OpManifest.Script
