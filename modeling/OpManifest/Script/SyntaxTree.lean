/-!
# Syntax trees

What is read of the syntax of a script: nodes of a kind, the bytes that they
stand for, and the nodes that they are made of.
-/

namespace OpManifest.Script

/-- What a node is.  All that has nothing to do with calls and literals is
`other`. -/
inductive SyntaxKind where
  | call
  | identifier
  | arguments
  | string
  | template
  | substitution
  | other
  deriving DecidableEq, Repr

/-- What a node is to the call that it belongs to. -/
inductive SyntaxField where
  | callee
  | arguments
  deriving DecidableEq, Repr

/-- A node of a syntax tree, from its first byte to the one behind its last. -/
structure SyntaxTree where
  kind : SyntaxKind
  field : Option SyntaxField := none
  start : Nat
  stop : Nat
  children : List SyntaxTree := []
  deriving Repr

namespace SyntaxTree

/-- The first child that is this to the node. -/
def child? (tree : SyntaxTree) (field : SyntaxField) : Option SyntaxTree :=
  tree.children.find? (·.field = some field)

/-- The node is a string or a template. -/
def isLiteral (tree : SyntaxTree) : Bool := tree.kind = .string || tree.kind = .template

mutual

/-- The calls in a tree; a call stands before those inside it. -/
def calls : SyntaxTree → List SyntaxTree
  | ⟨kind, field, start, stop, children⟩ =>
    (if kind = .call then [⟨kind, field, start, stop, children⟩] else []) ++ callsIn children

/-- The calls in a list of trees. -/
def callsIn : List SyntaxTree → List SyntaxTree
  | [] => []
  | tree :: trees => tree.calls ++ callsIn trees

end

end SyntaxTree

end OpManifest.Script
