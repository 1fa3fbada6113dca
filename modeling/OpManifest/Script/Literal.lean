import OpManifest.Script.Escape
import OpManifest.Script.SyntaxTree
import OpManifest.Text.Slice

/-!
# Tagged literals

The literals that calls of the tags have, and the text that a literal stands
for.  A tag is called with a template after it, or with arguments of which one is
a string or a template.
-/

namespace OpManifest.Script

open Text (slice?)

/-- The names of the functions whose literals are GraphQL documents. -/
def tags : List String := ["gql", "graphql"]

/-- The literal of a call, if its callee is a tag. -/
def taggedLiteral? (text : List Char) (call : SyntaxTree) : Option SyntaxTree := do
  let callee ← call.child? .callee
  guard (callee.kind = .identifier)
  let name ← slice? text callee.start callee.stop
  guard (tags.contains (.ofList name))
  let arguments ← call.child? .arguments
  if arguments.kind = .template then return arguments
  arguments.children.find? (·.isLiteral)

/-- The literals of tags in a syntax tree. -/
def taggedLiterals (text : List Char) (tree : SyntaxTree) : List SyntaxTree :=
  tree.calls.filterMap (taggedLiteral? text)

/-- What the text between two places stands for, without the substitutions among
the nodes in it. -/
def textAround? (text : List Char) (start stop : Nat) : List SyntaxTree → Option (List Char)
  | [] => unescape <$> slice? text start stop
  | node :: nodes =>
    if node.kind = .substitution then do
      let part ← slice? text start node.start
      let others ← textAround? text node.stop stop nodes
      return unescape part ++ others
    else textAround? text start stop nodes

/-- The text that a literal stands for: what is between its delimiters, without
substitutions. -/
def literalText? (text : List Char) (literal : SyntaxTree) : Option (List Char) :=
  match literal.kind, literal.stop with
  | .template, stop + 1 => textAround? text (literal.start + 1) stop literal.children
  | .string, stop + 1 => unescape <$> slice? text (literal.start + 1) stop
  | _, _ => none

end OpManifest.Script
