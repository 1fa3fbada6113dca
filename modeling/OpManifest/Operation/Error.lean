import OpManifest.Data.Record
import OpManifest.Glob
import OpManifest.GraphQL.Lexeme
import OpManifest.Operation.Literal
import OpManifest.Path

/-!
# Compile errors

Why a document cannot be compiled into an operation, and why a source file or the
files of a project cannot be compiled.
-/

namespace OpManifest

open GraphQL (Position)

/-- Why documents cannot be compiled: one of them is at fault, they are not found
in a text, the glob for their files is malformed, or a file cannot be read.  An
error can be told with the file that it was found in. -/
inductive CompileError where
  | malformedDocument (position : Position)
  | operationCount (found : Nat)
  | unsupportedOperation (keyword : String)
  | anonymousOperation
  | missingArgument (directive argument : String)
  | argumentKind (argument : String) (expected actual : LiteralKind)
  | unsupportedLiteral (kind : LiteralKind)
  | invalidToolName (name : String)
  | argumentShape (argument : String) (cause : Data.ShapeError)
  | extraction (reason : String)
  | invalidGlob (cause : GlobError)
  | unreadable (path : Path)
  | inFile (file : Path) (cause : CompileError)
  deriving Repr

namespace CompileError

/-- The text of the error, without what the file system adds. -/
def message : CompileError → String
  | .malformedDocument position =>
    "Failed to parse GraphQL document: query parse error: Parse error at "
      ++ toString position.line ++ ":" ++ toString position.column
  | .operationCount found =>
    "Expected exactly one operation per document, found " ++ toString found
  | .unsupportedOperation keyword =>
    "Unsupported operation type `" ++ keyword ++ "`; only queries and mutations can be compiled"
  | .anonymousOperation =>
    "Anonymous operations cannot be added to the manifest; give the operation a name"
  | .missingArgument directive argument =>
    "`@" ++ directive ++ "` is missing the required `" ++ argument ++ "` argument"
  | .argumentKind argument expected actual =>
    "Argument `" ++ argument ++ "` must be a " ++ expected.name ++ ", found " ++ actual.name
  | .unsupportedLiteral kind =>
    "Unsupported " ++ kind.name
      ++ " literal in directive argument; only strings, booleans, lists and objects are allowed"
  | .invalidToolName name => "Tool name \"" ++ name ++ "\" must not contain whitespace"
  | .argumentShape argument cause =>
    "Argument `" ++ argument ++ "` has an invalid shape: " ++ cause.message
  | .extraction reason => "Failed to extract documents: " ++ reason
  | .invalidGlob cause => cause.message
  | .unreadable path => "IO error at " ++ path.text
  | .inFile file cause => file.text ++ ": " ++ cause.message

end CompileError

end OpManifest
