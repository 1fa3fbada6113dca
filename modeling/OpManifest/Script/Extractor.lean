import OpManifest.Operation.Error
import OpManifest.Script.Call
import OpManifest.Script.Literal
import OpManifest.Text.Infix

/-!
# Extractors

An extractor finds the GraphQL documents in a source file.  The extractor for
scripts takes the literals of its tags, wherever a parser finds them.
-/

namespace OpManifest.Script

/-- A document in a source file, and the offset of its literal in bytes. -/
structure Embedded where
  source : String
  offset : Nat
  deriving DecidableEq, Repr

/-- Finds the documents in a file with the given path and text, or says why it
cannot. -/
abbrev Extractor := Path → String → Except CompileError (List Embedded)

/-- Finds the syntax tree of a script. -/
abbrev Parser := Language → String → SyntaxTree

/-- The text may hold documents: one of the tags occurs in it. -/
def hasMarker (text : String) : Bool :=
  tags.any fun tag => Text.hasInfix tag.toList text.toList

/-- The document that a literal stands for.  What its substitutions would
insert is left out. -/
def documentOf (path : Path) (text : String) (literal : SyntaxTree) :
    Except CompileError Embedded :=
  match literalText? text.toList literal with
  | some source => .ok ⟨.ofList source, literal.start⟩
  | none =>
    let reason := "malformed GraphQL literal at byte " ++ toString literal.start ++ " in "
      ++ path.text
    .error (.extraction reason)

/-- Puts a document before the first one that does not begin before it. -/
def insertDocument (document : Embedded) : List Embedded → List Embedded
  | [] => [document]
  | other :: rest =>
    if document.offset ≤ other.offset then document :: other :: rest
    else other :: insertDocument document rest

/-- The documents by their offsets; those with one offset keep their order. -/
def sortDocuments (documents : List Embedded) : List Embedded := documents.foldr insertDocument []

/-- Finds the documents of a script, by their offsets; files in other languages have
none. -/
def extractWith (parse : Parser) : Extractor := fun path text =>
  match Language.ofPath? path with
  | none => .ok []
  | some language => do
    let literals := taggedLiterals text.toList (parse language text)
    let documents ← literals.mapM (documentOf path text)
    return sortDocuments documents

/-- The extractor for scripts. -/
def extract : Extractor := extractWith SyntaxTree.ofText

end OpManifest.Script
