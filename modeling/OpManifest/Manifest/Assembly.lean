import OpManifest.Digest.Blake3
import OpManifest.Manifest.Basic
import OpManifest.Manifest.Context
import OpManifest.Project.Config

/-!
# Assembling manifests

A manifest is put together from the compiled operations, the configuration of
the project and the context of the build.
-/

namespace OpManifest

/-- The content policy that is configured. -/
def ContentPolicy.ofConfig (config : PolicyConfig) : ContentPolicy where
  connectDomains := config.connectDomains
  resourceDomains := config.resourceDomains
  frameDomains := config.frameDomains
  redirectDomains := config.redirectDomains

/-- The widget settings that are configured. -/
def WidgetSettings.ofConfig (config : WidgetConfig) : WidgetSettings where
  prefersBorder := config.prefersBorder
  domain := config.domain
  description := config.description

/-- The labels of invocations that are configured. -/
def InvocationLabels.ofConfig (config : InvocationLabelsConfig) : InvocationLabels where
  invoking := config.invoking
  invoked := config.invoked

/-- The labels that are configured. -/
def ToolLabels.ofConfig (config : LabelsConfig) : ToolLabels where
  toolInvocation := config.toolInvocation.map InvocationLabels.ofConfig

/-- At most one operation is prefetched. -/
def checkPrefetched (operations : List OperationDescriptor) : Except ManifestError Unit :=
  let marked := operations.filter (·.prefetch)
  if 1 < marked.length then .error (.manyPrefetched (marked.map (·.name))) else .ok ()

/-- The eight lowest bytes of a number, the lowest first. -/
def timeBytes (time : Nat) : List UInt8 :=
  (List.range 8).map fun i => (time >>> (8 * i)).toUInt8

/-- The token of a manifest.  It depends on the operations and on the time, so
that two manifests of the same operations have different tokens. -/
def manifestHash (operations : List OperationDescriptor) (time : Nat) : String :=
  let text := (Json.array (operations.map OperationDescriptor.toJson)).compact
  Digest.hex (Digest.Blake3.digest (text.toUTF8.toList ++ timeBytes time))

/-- The manifest of the operations, generated at the given time.  The operations
keep their order, and the index is theirs. -/
def assemble (operations : List OperationDescriptor) (config : ProjectConfig)
    (context : BuildContext) (time : Nat) : Except ManifestError Manifest := do
  checkPrefetched operations
  let resource ← context.resource config.entry
  let manifest : Manifest := {
    format := Manifest.currentFormat
    version := Manifest.currentVersion
    name := config.name
    description := config.description
    hash := manifestHash operations time
    resource
    operations
    policy := .ofConfig config.policy
    widgetSettings := .ofConfig config.widget
    labels := .ofConfig config.labels }
  return manifest.reindex

end OpManifest
