import FleetControl.Node
import FleetControl.Random.Shuffle

/-!
# Placement policies

A placement policy ranks the nodes that may receive a new instance, most preferred first: by
least load, by most load, or at random. Load counts the instances of the deployment on a node;
ties go to the lower id.
-/

namespace FleetControl.Placement

/-- How nodes are ranked for new instances. -/
inductive Policy where
  /-- Least loaded first. -/
  | spread
  /-- Most loaded first. -/
  | binPack
  /-- In an order drawn from a generator. -/
  | random (generator : Random.Generator)
deriving DecidableEq, Inhabited

namespace Policy

/-- The name of the policy. -/
def name : Policy → String
  | .spread => "spread"
  | .binPack => "bin-pack"
  | .random _ => "random"

/-- The instances that a node hosts. -/
def loadOf (load : SortedMap String Nat) (node : Node) : Nat := (load.get? node.id).getD 0

/-- Order by id. -/
def byId (a b : Node) : Ordering := compare a.id b.id

/-- Order by load, then by id. -/
def leastLoaded (load : SortedMap String Nat) (a b : Node) : Ordering :=
  (compare (loadOf load a) (loadOf load b)).then (byId a b)

/-- Order by load from above, then by id. -/
def mostLoaded (load : SortedMap String Nat) (a b : Node) : Ordering :=
  (compare (loadOf load b) (loadOf load a)).then (byId a b)

/-- Nodes sorted by an order, equals in the order given. -/
def sortNodes (order : Node → Node → Ordering) (nodes : List Node) : List Node :=
  nodes.mergeSort fun a b => (order a b).isLE

/-- The candidates in order of preference, and the policy after the draws. A random order starts
from the order of the ids, so it depends on nothing but the candidates and the generator. -/
def rank (policy : Policy) (candidates : List Node) (load : SortedMap String Nat) :
    List Node × Policy :=
  match policy with
  | .spread => (sortNodes (leastLoaded load) candidates, .spread)
  | .binPack => (sortNodes (mostLoaded load) candidates, .binPack)
  | .random generator =>
    let (ranked, generator) := Random.shuffle (sortNodes byId candidates) generator
    (ranked, .random generator)

end Policy

end FleetControl.Placement
