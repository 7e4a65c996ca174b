import FleetControl.SortedMap

/-!
# Nodes

A node is a host of the fleet as its registry reports it: an id, labels and a health flag. The
label `region` places it in the region tree.
-/

namespace FleetControl

/-- A host that can run containers. -/
structure Node where
  /-- The name of the node in the fleet. -/
  id : String
  /-- Declared labels. -/
  labels : SortedMap String String := .empty
  /-- Health as last reported. -/
  healthy : Bool := true
deriving DecidableEq, Inhabited

namespace Node

/-- The label whose value is the dotted path of the node's region. -/
def regionLabel : String := "region"

/-- The dotted path of the node's region; empty without a region label. -/
def region (node : Node) : String := (node.labels.get? regionLabel).getD ""

/-- The node has every required label, with the required value. -/
def carries (node : Node) (required : SortedMap String String) : Bool :=
  required.toList.all fun (key, value) => node.labels.get? key == some value

end Node

end FleetControl
