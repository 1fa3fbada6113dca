import OpManifest.Data.Record
import OpManifest.Json.Basic
import OpManifest.Operation.Descriptor

/-!
# Host settings

What the host of an application is told about showing it: the domains that it
may use, and how its widget is framed.
-/

namespace OpManifest

open Data

/-- The domains that an application may use, by what it uses them for. -/
structure ContentPolicy where
  connectDomains : List String := []
  resourceDomains : List String := []
  frameDomains : List String := []
  redirectDomains : List String := []
  deriving DecidableEq, Repr, Inhabited

/-- How the host frames the widget of an application. -/
structure WidgetSettings where
  prefersBorder : Option Bool := none
  domain : Option String := none
  description : Option String := none
  deriving DecidableEq, Repr, Inhabited

/-! ## Reading -/

def domainsField (name : String) : RecordField (List String) :=
  .withDefault name (Reader.list Reader.text) []

/-- A record of four lists of domains with the given names, which `make` puts
together. -/
def readDomains {α : Type} (make : List String → List String → List String → List String → α)
    (origin : Origin) (record connect resource frame redirect : String) : Reader α := fun d => do
  let fields := [domainsField connect, domainsField resource, domainsField frame,
    domainsField redirect]
  let form : RecordForm := ⟨record, fields.map RecordField.toCheck, false⟩
  let members ← form.members origin d
  return make (← (domainsField connect).get members) (← (domainsField resource).get members)
    (← (domainsField frame).get members) (← (domainsField redirect).get members)

/-- The content policy of a manifest. -/
def ContentPolicy.read (origin : Origin) : Reader ContentPolicy :=
  readDomains ContentPolicy.mk origin "Csp" "connectDomains" "resourceDomains" "frameDomains"
    "redirectDomains"

namespace WidgetSettings

def prefersBorderField : RecordField (Option Bool) :=
  .withDefault "prefersBorder" (Reader.optional Reader.boolean) none

def domainField : RecordField (Option String) :=
  .withDefault "domain" (Reader.optional Reader.text) none

def descriptionField : RecordField (Option String) :=
  .withDefault "description" (Reader.optional Reader.text) none

def form : RecordForm :=
  ⟨"WidgetSettings",
    [prefersBorderField.toCheck, domainField.toCheck, descriptionField.toCheck], false⟩

/-- The widget settings of a manifest. -/
def read (origin : Origin) : Reader WidgetSettings := fun d => do
  let members ← form.members origin d
  return {
    prefersBorder := ← prefersBorderField.get members
    domain := ← domainField.get members
    description := ← descriptionField.get members }

end WidgetSettings

/-! ## Writing -/

/-- An array of strings. -/
def Json.strings (texts : List String) : Json := .array (texts.map .string)

def ContentPolicy.toJson (policy : ContentPolicy) : Json :=
  .object [("connectDomains", .strings policy.connectDomains),
    ("resourceDomains", .strings policy.resourceDomains),
    ("frameDomains", .strings policy.frameDomains),
    ("redirectDomains", .strings policy.redirectDomains)]

def WidgetSettings.toJson (settings : WidgetSettings) : Json :=
  .object (Json.memberIfSome "prefersBorder" .boolean settings.prefersBorder
    ++ Json.memberIfSome "domain" .string settings.domain
    ++ Json.memberIfSome "description" .string settings.description)

end OpManifest
