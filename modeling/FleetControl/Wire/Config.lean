import FleetControl.Config
import FleetControl.Wire.Fleet

/-!
# Configurations as data

The shape in which a configuration is read, in any notation, and the JSON in which it is written.
-/

namespace FleetControl

open Data Placement

/-- The names of the placement policies. -/
def PolicyKind.words : List (String × PolicyKind) :=
  [("spread", .spread), ("bin-pack", .binPack), ("random", .random)]

/-- The name of a placement policy. -/
def PolicyKind.word : PolicyKind → String
  | .spread => "spread"
  | .binPack => "bin-pack"
  | .random => "random"

/-- The names of the victim policies. -/
def Placement.VictimPolicy.words : List (String × VictimPolicy) :=
  [("most-loaded-oldest-first", .mostLoadedOldestFirst), ("newest-first", .newestFirst)]

/-- How a bound node is read. -/
def NodeBinding.shape : Shape NodeBinding :=
  NodeBinding.mk <$> .required "id" .text
    <*> .optional "region" .text
    <*> .withDefault "labels" (.map .text) .empty
    <*> .withDefault "healthy" .bool true

/-- How placement settings are read. -/
def PlacementSettings.shape (dialect : Dialect) : Shape PlacementSettings :=
  PlacementSettings.mk <$> .withDefault "policy" (.variant dialect PolicyKind.words) .spread
    <*> .withDefault "victims" (.variant dialect VictimPolicy.words) .mostLoadedOldestFirst
    <*> .optional "seed" .word64
    <*> .optional "max_instances_per_node" .word32

/-- How engine settings are read. -/
def EngineSettings.shape : Shape EngineSettings :=
  EngineSettings.mk <$> .withDefault "dispatch_timeout_ms" .word64 10000
    <*> .withDefault "max_concurrent_dispatches" .word64 8
    <*> .withDefault "error_log_capacity" .word64 64

/-- How reconcile settings are read. -/
def ReconcileSettings.shape : Shape ReconcileSettings :=
  ReconcileSettings.mk <$> .withDefault "interval_secs" .word64 30

namespace Config

/-- How a configuration is read. -/
def shape (dialect : Dialect) : Shape Config :=
  Config.mk <$> .withDefault "regions" (.list (Region.Declaration.shape.decode dialect)) []
    <*> .withDefault "nodes" (.list (NodeBinding.shape.decode dialect)) []
    <*> .withDefault "placement" ((PlacementSettings.shape dialect).decode dialect) {}
    <*> .withDefault "engine" (EngineSettings.shape.decode dialect) {}
    <*> .withDefault "reconcile" (ReconcileSettings.shape.decode dialect) {}

/-- How a configuration is written. -/
def toJson (c : Config) : Json :=
  .object [
    ("regions", .list (c.regions.map Region.Declaration.toJson)),
    ("nodes", .list (c.nodes.map fun b => .object [
      ("id", .text b.id), ("region", .ofOption .text b.region), ("labels", b.labels.toJson),
      ("healthy", .bool b.healthy)])),
    ("placement", .object [
      ("policy", .text c.placement.policy.word), ("victims", .text c.placement.victims.name),
      ("seed", .ofOption (fun n => .number n.toNat) c.placement.seed),
      ("max_instances_per_node",
        .ofOption (fun n => .number n.toNat) c.placement.maxInstancesPerNode)]),
    ("engine", .object [
      ("dispatch_timeout_ms", .number c.engine.dispatchTimeoutMs.toNat),
      ("max_concurrent_dispatches", .number c.engine.maxConcurrentDispatches.toNat),
      ("error_log_capacity", .number c.engine.errorLogCapacity.toNat)]),
    ("reconcile", .object [("interval_secs", .number c.reconcile.intervalSecs.toNat)])]

end Config

end FleetControl
