import OpManifest.Path

/-!
# Script languages

The languages whose files can hold GraphQL documents.  The extension of a file
decides its language.
-/

namespace OpManifest.Script

/-- A dialect of JavaScript. -/
inductive Language where
  | typeScript
  | tsx
  | javaScript
  deriving DecidableEq, Repr

namespace Language

/-- The language that an extension stands for. -/
def ofExtension? : String → Option Language
  | "ts" | "mts" | "cts" => some .typeScript
  | "tsx" => some .tsx
  | "js" | "mjs" | "cjs" | "jsx" => some .javaScript
  | _ => none

/-- The language of a file. -/
def ofPath? (path : Path) : Option Language := path.extension?.bind ofExtension?

/-- The language has type arguments and non-null assertions. -/
def hasTypes : Language → Bool
  | .typeScript | .tsx => true
  | .javaScript => false

/-- The language has elements between angle brackets. -/
def hasElements : Language → Bool
  | .tsx | .javaScript => true
  | .typeScript => false

end Language

end OpManifest.Script
