import FleetControl.Engine

/-!
# Dispatches

A dispatch is a call to the container engine that a pass plans: the creation of an instance on a
node or the removal of an instance. Its outcome says whether it was made and what came of it.
-/

namespace FleetControl

/-- A planned call. -/
inductive Dispatch where
  /-- Create an instance on a node, under a sequence number. -/
  | create (node : Node) (spec : ContainerSpec) (seq : Nat)
  /-- Remove an instance, which may be stale or one too many. -/
  | remove (target : Instance) (stale : Bool)
deriving DecidableEq

/-- Why a dispatch did not succeed. -/
inductive DispatchError where
  /-- The container engine refused. -/
  | engine (error : EngineError)
  /-- The call took longer than a time in milliseconds. -/
  | timeout (ms : Nat)
  /-- The pass was cancelled before the call was made. -/
  | cancelled
deriving DecidableEq

/-- The error in words. -/
def DispatchError.message : DispatchError → String
  | .engine error => "container engine error: " ++ error.message
  | .timeout ms => "timed out after " ++ Text.duration ms
  | .cancelled => "cancelled before dispatch"

namespace Dispatch

/-- The node that is called. -/
def nodeId : Dispatch → String
  | .create node .. => node.id
  | .remove target _ => target.nodeId

/-- What the call is for. -/
def kind : Dispatch → DispatchKind
  | .create .. => .create
  | .remove .. => .remove

/-- The instance to be removed. -/
def instanceId : Dispatch → Option String
  | .create .. => none
  | .remove target _ => some target.id

/-- What the call does when its time is up; gives the handle of the container. -/
def perform : Dispatch → Engine → Engine × Except DispatchError String
  | .create node spec _, e =>
    match e.create node spec with
    | (e, .ok handle) => (e, .ok handle)
    | (e, .error error) => (e, .error (.engine error))
  | .remove target _, e =>
    match e.remove target with
    | (e, .ok ()) => (e, .ok target.handle)
    | (e, .error error) => (e, .error (.engine error))

end Dispatch

/-- A dispatch and what came of it. -/
structure Outcome where
  /-- The dispatch. -/
  dispatch : Dispatch
  /-- The handle of the container, or why there is none. -/
  result : Except DispatchError String

end FleetControl
