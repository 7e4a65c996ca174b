import FleetControl.SortedMap

/-!
# Instances

An instance is a container that a deployment runs on a node. Instances are ordered by age: the
time of creation, then the sequence number within the deployment, then the id.
-/

namespace FleetControl

/-- A running container of a deployment. -/
structure Instance where
  /-- The name of the instance. -/
  id : String
  /-- The node that hosts it. -/
  nodeId : String
  /-- The container engine's name for its container. -/
  handle : String
  /-- Fingerprint of the specification it was created from. -/
  specFingerprint : String
  /-- When it was created, in seconds of the wall clock. -/
  createdAt : Nat
  /-- Its number among the creations of its deployment. -/
  seq : Nat
deriving DecidableEq, Inhabited

namespace Instance

/-- Order by age, older first. -/
def compareAge (a b : Instance) : Ordering :=
  (compare a.createdAt b.createdAt).then <| (compare a.seq b.seq).then (compare a.id b.id)

end Instance

/-- How many of the given instances each node hosts. -/
def loadByNode (instances : List Instance) : SortedMap String Nat :=
  instances.foldl (fun load i => load.insert i.nodeId ((load.get? i.nodeId).getD 0 + 1)) .empty

end FleetControl
