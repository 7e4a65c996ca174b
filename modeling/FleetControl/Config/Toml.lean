import FleetControl.Toml.Writer
import FleetControl.Wire.Config

/-!
# Configurations in TOML

`Config.ofToml` reads and validates a configuration; `Config.toToml` writes one, with every field
that has a value, and fails if a number has more than the 63 bits that TOML allows.
-/

namespace FleetControl.Config

open Toml

/-- Why a text gives no configuration. -/
inductive TomlError where
  /-- The text describes no configuration. -/
  | unreadable (fault : Data.Fault)
  /-- The configuration has a defect. -/
  | invalid (defect : Defect)
deriving DecidableEq

/-- Read a configuration and validate it. -/
def ofToml (text : String) : Except TomlError Config := do
  let c ← (Reader.decode ((Config.shape dialect).decode dialect) text).mapError .unreadable
  c.validate.mapError .invalid
  return c

/-- The field of a number, which must not have more than 63 bits. -/
def numberLine (key : String) (n : UInt64) : Option Line :=
  if Toml.Number.inRange n.toNat then some (.field key (.integer n.toNat)) else none

/-- The lines of a map of texts, under its header. -/
def mapLines (path : List String) (key : String) (m : SortedMap String String) : List Line :=
  .header path key :: m.toList.map fun (k, v) => .field k (.text v)

/-- The lines of a declared region. -/
def regionLines (d : Region.Declaration) : List Line :=
  [.element [] "regions", .field "path" (.text d.path),
    .field "inherit_properties" (.bool d.settings.inheritProperties),
    .field "deployment_target" (.bool d.settings.deploymentTarget),
    .field "cluster" (.bool d.settings.cluster)] ++
  mapLines ["regions"] "properties" d.settings.properties

/-- The lines of a bound node. -/
def nodeLines (b : NodeBinding) : List Line :=
  [.element [] "nodes", .field "id" (.text b.id)] ++
  (b.region.map fun region => Line.field "region" (.text region)).toList ++
  [.field "healthy" (.bool b.healthy)] ++
  mapLines ["nodes"] "labels" b.labels

/-- The lines of placement settings. -/
def placementLines (s : PlacementSettings) : Option (List Line) := do
  let seed ← s.seed.mapM (numberLine "seed")
  return [.header [] "placement", .field "policy" (.text s.policy.word),
    .field "victims" (.text s.victims.name)] ++ seed.toList ++
    (s.maxInstancesPerNode.map fun n =>
      Line.field "max_instances_per_node" (.integer n.toNat)).toList

/-- The lines of engine settings. -/
def engineLines (s : EngineSettings) : Option (List Line) := do
  return [.header [] "engine", ← numberLine "dispatch_timeout_ms" s.dispatchTimeoutMs,
    ← numberLine "max_concurrent_dispatches" s.maxConcurrentDispatches,
    ← numberLine "error_log_capacity" s.errorLogCapacity]

/-- The lines of reconcile settings. -/
def reconcileLines (s : ReconcileSettings) : Option (List Line) := do
  return [.header [] "reconcile", ← numberLine "interval_secs" s.intervalSecs]

/-- The line of a list without elements; elements have headers of their own. -/
def emptyLine {α : Type} (key : String) (xs : List α) : List Line :=
  if xs.isEmpty then [.field key .emptyArray] else []

/-- The lines of a configuration. -/
def lines (c : Config) : Option (List Line) := do
  let placement ← placementLines c.placement
  let engine ← engineLines c.engine
  let reconcile ← reconcileLines c.reconcile
  return emptyLine "regions" c.regions ++ emptyLine "nodes" c.nodes ++
    c.regions.flatMap regionLines ++ c.nodes.flatMap nodeLines ++ placement ++ engine ++ reconcile

/-- A configuration in TOML. -/
def toToml (c : Config) : Option String := c.lines.map writeLines

end FleetControl.Config
