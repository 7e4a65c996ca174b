import FleetControl.Container

/-!
# Deployment requests

A request declares the desired state of one deployment. With the id of a deployment that exists
it replaces that deployment's desired state.
-/

namespace FleetControl

/-- The desired state of a deployment. -/
structure Request where
  /-- The deployment meant; generated on submission if absent. -/
  deploymentId : Option String := none
  /-- What to run. -/
  container : ContainerSpec
  /-- Dotted path of the region to run in; empty for anywhere. -/
  region : String := ""
  /-- How many instances to run. -/
  scale : UInt32
  /-- Labels that a node must carry to be eligible. -/
  requiredLabels : SortedMap String String := .empty
  /-- Whether a region that does not exist is an error. -/
  strictRegion : Bool := false
deriving DecidableEq, Inhabited

end FleetControl
