import OpManifest.GraphQL.Document

/-!
# Canonical documents

A document without the compiler's own directives and with its definitions in
order: operations before fragments, each group by name.  Definitions with one
name keep their order.
-/

namespace OpManifest

open GraphQL (Definition Directive Document)

/-- The directive that declares a tool. -/
def toolDirective : String := "tool"

/-- The directive that marks the operation to prefetch. -/
def prefetchDirective : String := "prefetch"

/-- The directive speaks to the compiler, not to a server. -/
def isCompilerDirective (directive : Directive) : Bool :=
  directive.name = toolDirective || directive.name = prefetchDirective

/-- The definition without the compiler's directives on its operation. -/
def withoutCompilerDirectives : Definition → Definition
  | .operation o => .operation { o with directives := o.directives.filter (!isCompilerDirective ·) }
  | definition => definition

/-- Where a definition belongs: operations first, then by name.  A definition
without a name belongs first. -/
def sortKey (definition : Definition) : Nat × String :=
  (if definition.isOperation then 0 else 1, definition.name?.getD "")

/-- The definition may stand before the other. -/
def precedes (a b : Definition) : Bool :=
  let (groupA, nameA) := sortKey a
  let (groupB, nameB) := sortKey b
  groupA < groupB || (groupA = groupB && nameA ≤ nameB)

/-- The canonical form of a document. -/
def canonical (document : Document) : Document :=
  ⟨(document.definitions.map withoutCompilerDirectives).mergeSort precedes⟩

end OpManifest
