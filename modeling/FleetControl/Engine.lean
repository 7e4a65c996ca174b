import FleetControl.Container
import FleetControl.Deployment
import FleetControl.Node
import FleetControl.Text.Duration

/-!
# The simulated container engine

The engine keeps its containers in memory, under handles numbered in the order of creation. A node
can be told to fail every call and to take its time. A call is counted when it starts; `create`
and `remove` are what it does when its time is up.
-/

namespace FleetControl

/-- A running container. -/
structure RunningContainer where
  /-- The name that the engine gave it. -/
  handle : String
  /-- The node that runs it. -/
  nodeId : String
  /-- Its image. -/
  image : String
deriving DecidableEq, Inhabited

/-- Why a call failed. -/
inductive EngineError where
  | refusedCreate (nodeId image : String)
  | refusedRemove (nodeId handle : String)
deriving DecidableEq, Inhabited

/-- The error in words. -/
def EngineError.message : EngineError → String
  | .refusedCreate nodeId image => "node " ++ nodeId ++ " refused to create " ++ image
  | .refusedRemove nodeId handle => "node " ++ nodeId ++ " refused to remove " ++ handle

/-- The state of the engine. -/
structure Engine where
  /-- The containers, by handle. -/
  containers : SortedMap String RunningContainer := .empty
  /-- The nodes that fail. -/
  failing : List String := []
  /-- How long calls on a node take, in milliseconds. -/
  latency : SortedMap String Nat := .empty
  /-- Number of containers created so far. -/
  nextHandle : Nat := 0
  /-- Number of create calls so far. -/
  createCalls : Nat := 0
  /-- Number of remove calls so far. -/
  removeCalls : Nat := 0
deriving DecidableEq, Inhabited

namespace Engine

/-- The handle with a number. -/
def handle (n : Nat) : String := "sim-" ++ Text.padded 6 n

variable (e : Engine)

/-! ### Nodes -/

/-- Let every call on a node fail. -/
def fail (nodeId : String) : Engine :=
  if e.failing.contains nodeId then e else { e with failing := nodeId :: e.failing }

/-- Let calls on a node succeed again. -/
def recover (nodeId : String) : Engine :=
  { e with failing := e.failing.filter (· != nodeId) }

/-- Whether calls on a node fail. -/
def isFailing (nodeId : String) : Bool := e.failing.contains nodeId

/-- Let calls on a node take a time. -/
def setLatency (nodeId : String) (ms : Nat) : Engine :=
  { e with latency := e.latency.insert nodeId ms }

/-- How long a call on a node takes. -/
def latencyOf (nodeId : String) : Nat := (e.latency.get? nodeId).getD 0

/-! ### Containers -/

/-- The containers, by handle. -/
def running : List RunningContainer := e.containers.values

/-- Number of containers on a node. -/
def runningOn (nodeId : String) : Nat := e.running.countP (·.nodeId == nodeId)

/-- Take a container away behind everyone's back. -/
def kill (handle : String) : Engine := { e with containers := e.containers.erase handle }

/-- Count a call that starts. -/
def count : DispatchKind → Engine
  | .create => { e with createCalls := e.createCalls + 1 }
  | .remove => { e with removeCalls := e.removeCalls + 1 }

/-- Create a container on a node; gives its handle. -/
def create (node : Node) (spec : ContainerSpec) : Engine × Except EngineError String :=
  if e.isFailing node.id then (e, .error (.refusedCreate node.id spec.image))
  else
    let h := handle e.nextHandle
    ({ e with
        containers := e.containers.insert h ⟨h, node.id, spec.image⟩
        nextHandle := e.nextHandle + 1 }, .ok h)

/-- Remove the container of an instance. It is no error if it is gone already. -/
def remove (i : Instance) : Engine × Except EngineError Unit :=
  if e.isFailing i.nodeId then (e, .error (.refusedRemove i.nodeId i.handle))
  else (e.kill i.handle, .ok ())

end Engine

end FleetControl
