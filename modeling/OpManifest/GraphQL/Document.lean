import OpManifest.Decimal.Binary64

/-!
# GraphQL documents

The abstract syntax of executable GraphQL documents: operations, fragments,
selections and literals.  Source positions are no part of it.
-/

namespace OpManifest.GraphQL

open Decimal (Binary64)

/-- A literal, or a reference to a variable. -/
inductive Value where
  | reference (variableName : String)
  | int (value : Int)
  | float (value : Binary64)
  | string (text : String)
  | boolean (value : Bool)
  | null
  | symbol (name : String)
  | list (items : List Value)
  | object (fields : List (String × Value))
  deriving Inhabited, BEq, Repr

/-- The type of a variable. -/
inductive TypeRef where
  | named (name : String)
  | list (item : TypeRef)
  | nonNull (type : TypeRef)
  deriving Inhabited, DecidableEq, Repr

/-- The named type inside any number of list and non-null wrappers. -/
def TypeRef.innermost : TypeRef → String
  | .named name => name
  | .list type | .nonNull type => type.innermost

/-- `@name(arguments)`.  Arguments keep their order and may repeat. -/
structure Directive where
  name : String
  arguments : List (String × Value)
  deriving Inhabited, BEq, Repr

/-- `$name: type = default`. -/
structure VariableDefinition where
  name : String
  type : TypeRef
  default : Option Value
  deriving Inhabited, BEq, Repr

/-- One member of a selection set.  A field without a selection set has no
selections. -/
inductive Selection where
  | field (responseName : Option String) (name : String) (arguments : List (String × Value))
      (directives : List Directive) (selections : List Selection)
  | spread (fragmentName : String) (directives : List Directive)
  | inlineFragment (typeCondition : Option String) (directives : List Directive)
      (selections : List Selection)
  deriving Inhabited, BEq, Repr

/-- The keyword that opens an operation. -/
inductive OperationKind where
  | query
  | mutation
  | subscription
  deriving Inhabited, DecidableEq, Repr

/-- The keyword as it is written. -/
def OperationKind.keyword : OperationKind → String
  | .query => "query"
  | .mutation => "mutation"
  | .subscription => "subscription"

/-- An operation that is written with its keyword. -/
structure Operation where
  kind : OperationKind
  name : Option String
  variableDefinitions : List VariableDefinition
  directives : List Directive
  selections : List Selection
  deriving Inhabited, BEq, Repr

/-- `fragment name on typeCondition directives { selections }`. -/
structure Fragment where
  name : String
  typeCondition : String
  directives : List Directive
  selections : List Selection
  deriving Inhabited, BEq, Repr

/-- A definition of a document.  The shorthand is a bare selection set, which
stands for a query without a name. -/
inductive Definition where
  | shorthand (selections : List Selection)
  | operation (operation : Operation)
  | fragment (fragment : Fragment)
  deriving Inhabited, BEq, Repr

/-- The definition is an operation, in shorthand or with its keyword. -/
def Definition.isOperation : Definition → Bool
  | .shorthand _ | .operation _ => true
  | .fragment _ => false

/-- The name that a definition declares. -/
def Definition.name? : Definition → Option String
  | .shorthand _ => none
  | .operation o => o.name
  | .fragment f => some f.name

/-- A document: its definitions in source order. -/
structure Document where
  definitions : List Definition
  deriving Inhabited, BEq, Repr

end OpManifest.GraphQL
