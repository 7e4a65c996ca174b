import FleetControl.Data.Shape
import FleetControl.Instance
import FleetControl.Json
import FleetControl.Node
import FleetControl.Region.View
import FleetControl.Request

/-!
# Nodes, containers, requests and regions as data

For each type that is exchanged: the shape in which it is read and the JSON in which it is
written.
-/

namespace FleetControl

open Data

/-- A map of texts as an object. -/
def SortedMap.toJson (m : SortedMap String String) : Json :=
  .object (m.toList.map fun (key, value) => (key, .text value))

namespace Node

/-- How a node is read. -/
def shape : Shape Node :=
  Node.mk <$> .required "id" .text
    <*> .withDefault "labels" (.map .text) .empty
    <*> .withDefault "healthy" .bool true

/-- How a node is written. -/
def toJson (node : Node) : Json :=
  .object [("id", .text node.id), ("labels", node.labels.toJson), ("healthy", .bool node.healthy)]

end Node

namespace ContainerSpec

/-- How a container specification is read. -/
def shape : Shape ContainerSpec :=
  ContainerSpec.mk <$> .required "image" .text
    <*> .withDefault "command" (.list .text) []
    <*> .withDefault "env" (.map .text) .empty
    <*> .withDefault "ports" (.list .word16) []

/-- How a container specification is written. -/
def toJson (spec : ContainerSpec) : Json :=
  .object [("image", .text spec.image), ("command", .texts spec.command),
    ("env", spec.env.toJson), ("ports", .list (spec.ports.map fun port => .number port.toNat))]

end ContainerSpec

namespace Instance

/-- How an instance is read. -/
def shape : Shape Instance :=
  Instance.mk <$> .required "id" .text
    <*> .required "node_id" .text
    <*> .required "handle" .text
    <*> .required "spec_fingerprint" .text
    <*> .required "created_at" (.below UInt64.size)
    <*> .required "seq" (.below UInt64.size)

/-- How an instance is written. -/
def toJson (i : Instance) : Json :=
  .object [("id", .text i.id), ("node_id", .text i.nodeId), ("handle", .text i.handle),
    ("spec_fingerprint", .text i.specFingerprint), ("created_at", .number i.createdAt),
    ("seq", .number i.seq)]

end Instance

namespace Request

/-- How a request is read. -/
def shape (dialect : Dialect) : Shape Request :=
  Request.mk <$> .optional "deployment_id" .text
    <*> .required "container" (ContainerSpec.shape.decode dialect)
    <*> .withDefault "region" .text ""
    <*> .required "scale" .word32
    <*> .withDefault "required_labels" (.map .text) .empty
    <*> .withDefault "strict_region" .bool false

/-- How a request is written. -/
def toJson (r : Request) : Json :=
  .object [("deployment_id", .ofOption .text r.deploymentId), ("container", r.container.toJson),
    ("region", .text r.region), ("scale", .number r.scale.toNat),
    ("required_labels", r.requiredLabels.toJson), ("strict_region", .bool r.strictRegion)]

end Request

namespace Region

/-- How the settings of a region are read, every field being there. -/
def Settings.shape : Shape Settings :=
  Settings.mk <$> .required "properties" (.map .text)
    <*> .required "inherit_properties" .bool
    <*> .required "deployment_target" .bool
    <*> .required "cluster" .bool

/-- How the settings of a region are read where each field has a default. -/
def Settings.declaredShape : Shape Settings :=
  Settings.mk <$> .withDefault "properties" (.map .text) .empty
    <*> .withDefault "inherit_properties" .bool true
    <*> .withDefault "deployment_target" .bool false
    <*> .withDefault "cluster" .bool false

/-- The fields of the settings of a region. -/
def Settings.fields (s : Settings) : List (String × Json) :=
  [("properties", s.properties.toJson), ("inherit_properties", .bool s.inheritProperties),
    ("deployment_target", .bool s.deploymentTarget), ("cluster", .bool s.cluster)]

/-- How the settings of a region are written. -/
def Settings.toJson (s : Settings) : Json := .object s.fields

/-- How a declared region is read. -/
def Declaration.shape : Shape Declaration :=
  Declaration.mk <$> .required "path" .text <*> Settings.declaredShape

/-- How a declared region is written. -/
def Declaration.toJson (d : Declaration) : Json :=
  .object (("path", .text d.path) :: d.settings.fields)

/-- How the view of a region is written. -/
def View.toJson (v : View) : Json :=
  .object [("id", .number v.id), ("name", .text v.name), ("absolute_name", .text v.path.toString),
    ("parent", .ofOption .number v.parent), ("children", .texts v.children),
    ("settings", v.settings.toJson), ("effective_properties", v.effectiveProperties.toJson)]

end Region

end FleetControl
