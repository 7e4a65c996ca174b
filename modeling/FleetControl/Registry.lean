import FleetControl.Node

/-!
# The node registry

The registry is the fleet's list of known nodes, healthy or not, by ascending id.
-/

namespace FleetControl

/-- The known nodes, by id. -/
structure Registry where
  /-- The node registered under each id. -/
  nodes : SortedMap String Node := .empty
deriving DecidableEq, Inhabited

namespace Registry

/-- Register a node, in place of the one with its id if there is one. -/
def upsert (r : Registry) (node : Node) : Registry := ⟨r.nodes.insert node.id node⟩

/-- The registry of a list of nodes; of nodes with one id the last counts. -/
def ofNodes (nodes : List Node) : Registry := nodes.foldl upsert {}

/-- The node registered under an id. -/
def lookup (r : Registry) (id : String) : Option Node := r.nodes.get? id

/-- The registry without a node. -/
def remove (r : Registry) (id : String) : Registry := ⟨r.nodes.erase id⟩

/-- Every known node, by ascending id. -/
def list (r : Registry) : List Node := r.nodes.values

/-- Number of known nodes. -/
def size (r : Registry) : Nat := r.nodes.size

/-- Set the health flag of a known node. -/
def setHealthy (r : Registry) (id : String) (healthy : Bool) : Registry :=
  ⟨r.nodes.modify id fun node => { node with healthy }⟩

/-- Set a label of a known node. -/
def setLabel (r : Registry) (id key value : String) : Registry :=
  ⟨r.nodes.modify id fun node => { node with labels := node.labels.insert key value }⟩

end Registry

end FleetControl
