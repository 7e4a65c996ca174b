import FleetControl.Instance
import FleetControl.Region.Path
import FleetControl.Request

/-!
# Deployment records

A record keeps what is wanted of a deployment (its request) and what there is (its instances),
with the failures and warnings met on the way. An instance is *matched* if it runs the current
container specification and *stale* otherwise.

A pass works on a copy of the record; `Deployment.absorb` takes its outcome back, keeping a request
that arrived in the meantime.
-/

namespace FleetControl

/-- How far a deployment is. -/
inductive DeploymentState where
  /-- No pass has run yet. -/
  | pending
  /-- A pass has something to do. -/
  | converging
  /-- The last pass left nothing to do. -/
  | converged
  /-- The last pass left something to do. -/
  | degraded
deriving DecidableEq, Inhabited

/-- What a call to the container engine is for. -/
inductive DispatchKind where
  | create
  | remove
deriving DecidableEq, Inhabited

/-- A call that failed. -/
structure Failure where
  /-- The node that was called. -/
  nodeId : String
  /-- What the call was for. -/
  kind : DispatchKind
  /-- The instance to be removed. -/
  instanceId : Option String
  /-- What went wrong. -/
  error : String
  /-- When, in seconds of the wall clock. -/
  occurredAt : Nat
deriving DecidableEq, Inhabited

/-- Something wrong that stops nothing. -/
inductive Warning where
  /-- There are not enough eligible nodes. -/
  | underProvisioned (needed eligible shortfall : Nat)
deriving DecidableEq, Inhabited

/-- What a pass did. Its numbers have 32 bits where they are kept; here they have no bound, so they
are exact as long as they are below `2 ^ 32`. -/
structure Report where
  /-- The deployment. -/
  deploymentId : String
  /-- How many instances were wanted. -/
  desired : Nat
  /-- Number of elected nodes, if an election was held. -/
  eligible : Option Nat := none
  /-- Instances created. -/
  created : Nat := 0
  /-- Instances removed because there were too many. -/
  removed : Nat := 0
  /-- Instances removed because they were stale. -/
  staleRemoved : Nat := 0
  /-- Instances dropped because their node left the registry. -/
  lost : Nat := 0
  /-- Calls that failed. -/
  failed : Nat := 0
  /-- Instances that no node could take. -/
  shortfall : Nat := 0
  /-- Calls not made because the pass was cancelled. -/
  skipped : Nat := 0
  /-- Whether the pass was cancelled before its last call. -/
  cancelled : Bool := false
  /-- Instances in the end. -/
  instances : Nat := 0
  /-- State in the end. -/
  state : DeploymentState
  /-- Start of the pass. -/
  startedAt : Nat
  /-- End of the pass. -/
  finishedAt : Nat := 0
deriving DecidableEq, Inhabited

namespace Report

/-- Number of calls that were made. -/
def dispatches (r : Report) : Nat := r.created + r.removed + r.staleRemoved + r.failed

/-- Whether the pass changed no instance. -/
def isNoop (r : Report) : Bool := r.dispatches == 0 && r.lost == 0

end Report

/-- The record of a deployment. -/
structure Deployment where
  /-- The name of the deployment. -/
  id : String
  /-- What is wanted. -/
  request : Request
  /-- Fingerprint of the wanted container specification. -/
  specFingerprint : String
  /-- Number of requests accepted. -/
  generation : Nat := 1
  /-- How far the deployment is. -/
  state : DeploymentState := .pending
  /-- The regions that the last election aimed at. -/
  targetRegions : List Region.Path := []
  /-- What there is. -/
  instances : List Instance := []
  /-- The last failures, oldest first. -/
  errorLog : List Failure := []
  /-- Warnings of the last pass. -/
  warnings : List Warning := []
  /-- Acceptance of the first request. -/
  createdAt : Nat
  /-- End of the last pass. -/
  lastReconciledAt : Option Nat := none
  /-- Number of passes since the last that converged, which is exact below `2 ^ 32`. -/
  consecutiveDegradedPasses : Nat := 0
  /-- The report of the last pass. -/
  lastReport : Option Report := none
  /-- Sequence number of the next instance. -/
  nextSeq : Nat := 1
  /-- How many failures are kept. -/
  errorLogCapacity : Nat
deriving DecidableEq, Inhabited

namespace Deployment

/-- The record of a first request. At least one failure is kept. -/
def new (id : String) (request : Request) (errorLogCapacity now : Nat) : Deployment where
  id
  request := { request with deploymentId := some id }
  specFingerprint := request.container.fingerprint
  createdAt := now
  errorLogCapacity := max errorLogCapacity 1

/-- Put another request in the place of the one there is. -/
def update (d : Deployment) (request : Request) : Deployment :=
  { d with
    request := { request with deploymentId := some d.id }
    specFingerprint := request.container.fingerprint
    generation := d.generation + 1
    state := if d.state = .pending then .pending else .converging }

/-- The instance runs the wanted container specification. -/
def isMatched (d : Deployment) (i : Instance) : Bool := i.specFingerprint == d.specFingerprint

/-- The instances that run the wanted container specification. -/
def matched (d : Deployment) : List Instance := d.instances.filter d.isMatched

/-- The instances that run another container specification. -/
def stale (d : Deployment) : List Instance := d.instances.filter fun i => !d.isMatched i

/-- How many instances are wanted. -/
def scale (d : Deployment) : Nat := d.request.scale.toNat

/-- Whether a pass would find something to do on nodes that stay as they are. -/
def needsConvergence (d : Deployment) : Bool :=
  d.matched.length != d.scale || !d.stale.isEmpty

/-- The last failure of each node. -/
def lastErrors (d : Deployment) : SortedMap String Failure :=
  .ofList (d.errorLog.map fun f => (f.nodeId, f))

/-- Note a failure, and forget the oldest ones beyond the capacity. -/
def recordFailure (d : Deployment) (f : Failure) : Deployment :=
  { d with
    errorLog := d.errorLog.drop (d.errorLog.length + 1 - d.errorLogCapacity) ++ [f] }

/-- The id of the instance with a sequence number. -/
def instanceId (d : Deployment) (seq : Nat) : String := d.id ++ "-" ++ Nat.repr seq

/-- Take the outcome of a pass on a copy of this record. If the request was replaced while the pass
ran, the newer one stays. -/
def absorb (d pass : Deployment) : Deployment :=
  if pass.generation = d.generation then pass
  else { pass with
    request := d.request
    specFingerprint := d.specFingerprint
    generation := d.generation
    state := .converging }

end Deployment

end FleetControl
