import OpManifest.Manifest.Error
import OpManifest.Operation.Descriptor

/-!
# Build contexts

How the compiler is run, and where the running application is found.
-/

namespace OpManifest

/-- What the compiler is run as. -/
inductive Command where
  | serve
  | build
  deriving DecidableEq, Repr

/-- The command as messages name it. -/
def Command.noun : Command → String
  | .serve => "a dev server"
  | .build => "a one-shot build"

/-- Where a server accepts connections. -/
structure ServerAddress where
  protocol : String
  host : String
  portNumber : Nat
  deriving DecidableEq, Repr

/-- The address as a text. -/
def ServerAddress.text (address : ServerAddress) : String :=
  address.protocol ++ "://" ++ address.host ++ ":" ++ toString address.portNumber

/-- How the compiler is run.  The server is known only once it listens. -/
structure BuildContext where
  command : Command
  mode : String
  server : Option ServerAddress
  deriving DecidableEq, Repr

namespace BuildContext

/-- The mode in which a build needs no entry of its own. -/
def productionMode : String := "production"

/-- The resource of a build without an entry. -/
def defaultResource : String := "index.html"

/-- Where the application is found.  The entry of the mode comes first; without
one a server is found at its address, and a build only in production mode. -/
def resource (context : BuildContext) (entry : Dictionary) : Except ManifestError String :=
  match entry[context.mode]?, context.command, context.server with
  | some place, _, _ => .ok place
  | none, .serve, some address => .ok address.text
  | none, .serve, none => .error .serverUnavailable
  | none, .build, _ =>
    if context.mode = productionMode then .ok defaultResource
    else .error (.missingEntryPoint context.mode)

end BuildContext

end OpManifest
