import FleetControl.Node
import FleetControl.Placement.Selection
import FleetControl.Region.Tree
import FleetControl.Text.Blank

/-!
# Configuration

A configuration declares the regions and the nodes of a fleet and sets how deployments are placed,
how calls to the container engine are made, and how often deployments are reconciled.
`Config.validate` says what is wrong with one.
-/

namespace FleetControl

open Placement (Selector VictimPolicy)

/-- A node bound by the configuration. -/
structure NodeBinding where
  /-- The id of the node. -/
  id : String
  /-- Dotted path of its region. -/
  region : Option String := none
  /-- Its labels. -/
  labels : SortedMap String String := .empty
  /-- Whether it is healthy. -/
  healthy : Bool := true
deriving DecidableEq, Inhabited

/-- The node that is registered for a binding. A region that is set goes before a label. -/
def NodeBinding.node (b : NodeBinding) : Node where
  id := b.id
  labels := match b.region with
    | some region => b.labels.insert Node.regionLabel region
    | none => b.labels
  healthy := b.healthy

/-- The name of a placement policy. -/
inductive PolicyKind where
  | spread
  | binPack
  | random
deriving DecidableEq, Inhabited

/-- How nodes and victims are chosen. -/
structure PlacementSettings where
  /-- How nodes are ranked. -/
  policy : PolicyKind := .spread
  /-- How victims are chosen. -/
  victims : VictimPolicy := .mostLoadedOldestFirst
  /-- Seed of the random policy. -/
  seed : Option UInt64 := none
  /-- The most instances of a deployment that a node may host. -/
  maxInstancesPerNode : Option UInt32 := none
deriving DecidableEq, Inhabited

/-- The selector of the settings. A random policy without a seed takes the one at hand. -/
def PlacementSettings.selector (s : PlacementSettings) (entropy : UInt64) : Selector where
  policy := match s.policy with
    | .spread => .spread
    | .binPack => .binPack
    | .random => .random (.ofSeed (s.seed.getD entropy))
  victims := s.victims
  maxInstancesPerNode := s.maxInstancesPerNode

/-- How calls to the container engine are made. -/
structure EngineSettings where
  /-- How long a call may take, in milliseconds. -/
  dispatchTimeoutMs : UInt64 := 10000
  /-- How many calls of a pass may be under way at a time. -/
  maxConcurrentDispatches : UInt64 := 8
  /-- How many failures a deployment remembers. -/
  errorLogCapacity : UInt64 := 64
deriving DecidableEq, Inhabited

/-- How deployments are reconciled. -/
structure ReconcileSettings where
  /-- Seconds between sweeps over all deployments. -/
  intervalSecs : UInt64 := 30
deriving DecidableEq, Inhabited

/-- A configuration. -/
structure Config where
  /-- The declared regions. -/
  regions : List Region.Declaration := []
  /-- The bound nodes. -/
  nodes : List NodeBinding := []
  /-- Placement. -/
  placement : PlacementSettings := {}
  /-- Calls to the container engine. -/
  engine : EngineSettings := {}
  /-- Reconciliation. -/
  reconcile : ReconcileSettings := {}
deriving DecidableEq, Inhabited

namespace Config

/-- What is wrong with a configuration. -/
inductive Defect where
  | repeatedRegion (path : String)
  | blankNodeId
  | repeatedNode (id : String)
  | zeroTimeout
  | zeroConcurrency
  | zeroInterval
deriving DecidableEq, Inhabited

/-- The defect in words. -/
def Defect.message : Defect → String
  | .repeatedRegion path => "region `" ++ path ++ "` declared more than once"
  | .blankNodeId => "node id must not be empty"
  | .repeatedNode id => "node `" ++ id ++ "` declared more than once"
  | .zeroTimeout => "engine.dispatch_timeout_ms must be greater than zero"
  | .zeroConcurrency => "engine.max_concurrent_dispatches must be greater than zero"
  | .zeroInterval => "reconcile.interval_secs must be greater than zero"

/-- Paths must differ from each other and from those seen before. -/
def checkRegions : List String → List String → Except Defect Unit
  | _, [] => .ok ()
  | seen, path :: rest =>
    if seen.contains path then .error (.repeatedRegion path) else checkRegions (path :: seen) rest

/-- Node ids must not be blank and must differ from each other and from those seen before. -/
def checkNodes : List String → List String → Except Defect Unit
  | _, [] => .ok ()
  | seen, id :: rest =>
    if Text.isBlank id then .error .blankNodeId
    else if seen.contains id then .error (.repeatedNode id)
    else checkNodes (id :: seen) rest

/-- The first defect of a configuration, if it has one. The notation of paths is not looked at. -/
def validate (c : Config) : Except Defect Unit := do
  checkRegions [] (c.regions.map (·.path))
  checkNodes [] (c.nodes.map (·.id))
  if c.engine.dispatchTimeoutMs = 0 then throw .zeroTimeout
  if c.engine.maxConcurrentDispatches = 0 then throw .zeroConcurrency
  if c.reconcile.intervalSecs = 0 then throw .zeroInterval

/-- The nodes that the configuration registers. -/
def boundNodes (c : Config) : List Node := c.nodes.map NodeBinding.node

/-- The region tree that the configuration declares. -/
def regionTree (c : Config) : Except Region.Error Region.Tree :=
  Region.Tree.ofDeclarations c.regions

end Config

end FleetControl
