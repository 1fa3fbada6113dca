import OpManifest.HostSettings
import OpManifest.Path
import OpManifest.Text.Blank
import OpManifest.Toml.Document

/-!
# Project configuration

A project has one file that names the application, selects its sources and
says where its output goes.  All but the name can be left out.  What it says of
the host, the widget and the labels goes into the manifest.
-/

namespace OpManifest

open Data

/-- The domains that the application is configured to use, by what it uses them
for. -/
structure PolicyConfig where
  connectDomains : List String := []
  resourceDomains : List String := []
  frameDomains : List String := []
  redirectDomains : List String := []
  deriving DecidableEq, Repr, Inhabited

/-- How the widget of the application is configured to be framed. -/
structure WidgetConfig where
  prefersBorder : Option Bool := none
  domain : Option String := none
  description : Option String := none
  deriving DecidableEq, Repr, Inhabited

/-- What is configured to be shown while a tool runs and when it has run. -/
structure InvocationLabelsConfig where
  invoking : Option String := none
  invoked : Option String := none
  deriving DecidableEq, Repr, Inhabited

/-- The labels of a tool that has none of its own. -/
structure LabelsConfig where
  toolInvocation : Option InvocationLabelsConfig := none
  deriving DecidableEq, Repr, Inhabited

/-- The configuration of a project. -/
structure ProjectConfig where
  name : String
  description : String := ""
  sources : String := "src/**/*.\x7bts,tsx,js,jsx,mts,cts,mjs,cjs\x7d"
  outDir : Path := ⟨"dist"⟩
  entry : Dictionary := ∅
  policy : PolicyConfig := {}
  widget : WidgetConfig := {}
  labels : LabelsConfig := {}
  deriving DecidableEq, Repr

/-- Why a project has no configuration. -/
inductive ConfigError where
  | notFound (path : Path)
  | unreadable (path : Path)
  | malformed (path : Path) (cause : Fault)
  deriving Repr

/-- The text of the error, without what the reader of the file adds. -/
def ConfigError.message : ConfigError → String
  | .notFound path => "Project configuration not found: " ++ path.text
  | .unreadable path => "Failed to read " ++ path.text
  | .malformed path _ => "Invalid configuration in " ++ path.text

/-! ## Reading -/

/-- The content policy of a configuration. -/
def PolicyConfig.read : Reader PolicyConfig :=
  readDomains PolicyConfig.mk .toml "CspConfig" "connect_domains" "resource_domains"
    "frame_domains" "redirect_domains"

namespace WidgetConfig

def prefersBorderField : RecordField (Option Bool) :=
  .inMapping "prefers_border" (Reader.optional Reader.boolean) none

def domainField : RecordField (Option String) :=
  .inMapping "domain" (Reader.optional Reader.text) none

def descriptionField : RecordField (Option String) :=
  .inMapping "description" (Reader.optional Reader.text) none

def form : RecordForm :=
  ⟨"WidgetConfig",
    [prefersBorderField.toCheck, domainField.toCheck, descriptionField.toCheck], false⟩

/-- The widget settings of a configuration. -/
def read : Reader WidgetConfig := fun d => do
  let members ← form.members .toml d
  return {
    prefersBorder := ← prefersBorderField.get members
    domain := ← domainField.get members
    description := ← descriptionField.get members }

end WidgetConfig

namespace InvocationLabelsConfig

def invokingField : RecordField (Option String) :=
  .inMapping "invoking" (Reader.optional Reader.text) none

def invokedField : RecordField (Option String) :=
  .inMapping "invoked" (Reader.optional Reader.text) none

def form : RecordForm :=
  ⟨"InvocationLabelsConfig", [invokingField.toCheck, invokedField.toCheck], false⟩

/-- The invocation labels of a configuration. -/
def read : Reader InvocationLabelsConfig := fun d => do
  let members ← form.members .toml d
  return { invoking := ← invokingField.get members, invoked := ← invokedField.get members }

end InvocationLabelsConfig

namespace LabelsConfig

def toolInvocationField : RecordField (Option InvocationLabelsConfig) :=
  .inMapping "tool_invocation" (Reader.optional InvocationLabelsConfig.read) none

def form : RecordForm := ⟨"LabelsConfig", [toolInvocationField.toCheck], false⟩

/-- The labels of a configuration. -/
def read : Reader LabelsConfig := fun d => do
  let members ← form.members .toml d
  return { toolInvocation := ← toolInvocationField.get members }

end LabelsConfig

namespace ProjectConfig

/-- The configuration in which only the name is given. -/
def named (name : String) : ProjectConfig := { name }

def nameField : RecordField String := .required "name" Reader.text

def descriptionField : RecordField String := .withDefault "description" Reader.text ""

def sourcesField : RecordField String := .withDefault "include" Reader.text (named "").sources

def outDirField : RecordField Path :=
  .withDefault "out_dir" (fun d => Path.mk <$> Reader.textCalled "path string" d) (named "").outDir

def entryField : RecordField Dictionary := .withDefault "entry" Dictionary.read ∅

def policyField : RecordField PolicyConfig := .withDefault "csp" PolicyConfig.read {}

def widgetField : RecordField WidgetConfig := .withDefault "widget" WidgetConfig.read {}

def labelsField : RecordField LabelsConfig := .withDefault "labels" LabelsConfig.read {}

def form : RecordForm :=
  ⟨"ProjectConfig", [nameField.toCheck, descriptionField.toCheck, sourcesField.toCheck,
    outDirField.toCheck, entryField.toCheck, policyField.toCheck, widgetField.toCheck,
    labelsField.toCheck], false⟩

/-- A configuration; fields with other names do not count. -/
def read : Reader ProjectConfig := fun d => do
  let members ← form.members .toml d
  return {
    name := ← nameField.get members
    description := ← descriptionField.get members
    sources := ← sourcesField.get members
    outDir := ← outDirField.get members
    entry := ← entryField.get members
    policy := ← policyField.get members
    widget := ← widgetField.get members
    labels := ← labelsField.get members }

/-- The configuration in a text. -/
def ofText (text : String) : Except Fault ProjectConfig := Toml.readText read text

/-! ## Places -/

/-- The name of the configuration file in the root of a project. -/
def fileName : String := "toolgraph.toml"

/-- The environment variable that names another configuration file. -/
def fileVariable : String := "TOOLGRAPH_CONFIG"

/-- Where the configuration of a project lies.  Another place may be given, as
seen from the root; blanks around it do not count. -/
def pathIn (root : Path) (override : Option String) : Path :=
  let given := Text.trim (override.getD "")
  root.join ⟨if given = "" then fileName else given⟩

/-- The output directory of a project with the given root. -/
def outDirIn (config : ProjectConfig) (root : Path) : Path := root.join config.outDir

end ProjectConfig

end OpManifest
