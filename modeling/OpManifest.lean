import OpManifest.Digest.Blake3
import OpManifest.Json.Reader
import OpManifest.Operation.Compile
import OpManifest.Script.Language
import OpManifest.Script.Escape
import OpManifest.Script.Extractor
import OpManifest.Glob
import OpManifest.FileTree.Edit
import OpManifest.Manifest.Assembly
import OpManifest.Main
import OpManifest.Manifest.Lookup
import OpManifest.Proofs.Publication
import OpManifest.Proofs.Ignored
import OpManifest.Proofs.Incremental
import OpManifest.Proofs.Json
import OpManifest.Proofs.Record
import OpManifest.Proofs.ManifestText
import OpManifest.Proofs.Calls
import OpManifest.Proofs.FailedChange
import OpManifest.Proofs.Component
import OpManifest.Proofs.Spelling
import OpManifest.Proofs.WarmScan
import OpManifest.Proofs.Keys
import OpManifest.Proofs.Deletion
import OpManifest.Proofs.FailedScan
import OpManifest.Proofs.Feedback
import OpManifest.Proofs.Canonical
import OpManifest.Proofs.Digits
import OpManifest.Proofs.GraphQL.Lexing
import OpManifest.Proofs.Decimal
import OpManifest.Proofs.GraphQL.Number
import OpManifest.Proofs.GraphQL.Quoted
import OpManifest.Proofs.GraphQL.Block
import OpManifest.Proofs.GraphQL.Strings
import OpManifest.Proofs.GraphQL.Phrase
import OpManifest.Proofs.GraphQL.Fitting
import OpManifest.Proofs.GraphQL.Printing
import OpManifest.Proofs.GraphQL.Reading
import OpManifest.Proofs.GraphQL.Parsed
import OpManifest.Proofs.GraphQL.RoundTrip
import OpManifest.Proofs.OperationText
import OpManifest.Proofs.Forwarding
import OpManifest.Proofs.FileWork
import OpManifest.Proofs.Failure
import OpManifest.Proofs.Faultless
import OpManifest.Proofs.Argument
import OpManifest.Proofs.Arrangement
import OpManifest.Proofs.Description
import OpManifest.Proofs.Verdict
import OpManifest.Proofs.Hexadecimal
import OpManifest.Proofs.Escape
import OpManifest.Proofs.Decoding
import OpManifest.Proofs.RecordShape
import OpManifest.Proofs.ToolShape
import OpManifest.Proofs.Lookup
import OpManifest.Proofs.Resource
import OpManifest.Proofs.Marker
import OpManifest.Proofs.Document
import OpManifest.Proofs.KindSafety
import OpManifest.Proofs.Replacement
import OpManifest.Proofs.DefaultSources
