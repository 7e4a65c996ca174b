import FleetControl.Node
import FleetControl.Region.Tree
import FleetControl.Request

/-!
# Elections

An election says which of the known nodes may host a deployment.

1. The requested region is looked up. If it is missing nobody is elected, or, when the request
   insists on the region, the election fails.
2. The scope is the outermost cluster around the region, or the region itself outside clusters.
3. The target regions are those in the scope flagged as deployment targets, or else the scope.
4. A node outside clusters is elected if it lies in a target region, is healthy and carries the
   required labels.
5. The members of a cluster, over the whole fleet, are elected together: if one of them lies in a
   target region, all are if all are healthy and carry the labels, and otherwise none is.
-/

namespace FleetControl.Placement

open Region (Path Tree)

/-- The outcome of an election. -/
structure Election where
  /-- The region the election was widened to; none if the requested region is missing. -/
  scope : Option Path := none
  /-- The regions a node had to lie in. -/
  targetRegions : List Path := []
  /-- The elected nodes, by ascending id. -/
  nodes : List Node := []
  /-- The clusters admitted. -/
  clusters : List Path := []
  /-- The clusters turned away because of a member. -/
  rejectedClusters : List Path := []
deriving DecidableEq, Inhabited

/-- The outermost cluster on the way to a path, the root included. Segments that are not in the
tree are no clusters. -/
def outermostCluster (t : Tree) (p : Path) : Option Path :=
  if t.isCluster Tree.root then some Path.root
  else p.prefixes.find? fun q => (t.resolve q).any t.isCluster

/-- The deployment targets in a scope, or the scope if there are none. -/
def targetRegions (t : Tree) (scope : Path) (scopeId : Region.RegionId) : List Path :=
  match ((t.subtree scopeId).filter t.isDeploymentTarget).filterMap t.path? with
  | [] => [scope]
  | flagged => flagged

/-- The path of the region that a node's label names; the root if the label is no path. -/
def nodePath (node : Node) : Path := (Path.parse node.region).toOption.getD Path.root

/-- The known nodes, sorted into those outside clusters, by id, and the members of each cluster,
in the order given. -/
structure Census where
  /-- The nodes outside clusters. -/
  independent : SortedMap String Node := .empty
  /-- The members of each cluster. -/
  members : SortedMap Path (List Node) := .empty

/-- Count one node in. -/
def Census.add (t : Tree) (census : Census) (node : Node) : Census :=
  match outermostCluster t (nodePath node) with
  | some cluster =>
    { census with members :=
        census.members.insert cluster ((census.members.get? cluster).getD [] ++ [node]) }
  | none => { census with independent := census.independent.insert node.id node }

/-- Sort the known nodes. -/
def Census.take (t : Tree) (known : List Node) : Census := known.foldl (Census.add t) {}

/-- The node lies in one of the target regions. -/
def inTargets (targets : List Path) (node : Node) : Bool :=
  targets.any fun target => target.contains (nodePath node)

/-- The node is healthy and carries the labels that the request requires. -/
def passes (request : Request) (node : Node) : Bool :=
  node.healthy && node.carries request.requiredLabels

/-- Hold the election for a scope that exists. -/
def electWithin (request : Request) (t : Tree) (known : List Node) (scope : Path)
    (scopeId : Region.RegionId) : Election :=
  let targets := targetRegions t scope scopeId
  let census := Census.take t known
  let independent := census.independent.values.filter fun node =>
    inTargets targets node && passes request node
  let concerned := census.members.toList.filter fun (_, members) => members.any (inTargets targets)
  let (admitted, rejected) := concerned.partition fun (_, members) => members.all (passes request)
  let elected := independent ++ admitted.flatMap (·.2)
  { scope := some scope
    targetRegions := targets
    nodes := (SortedMap.ofList (elected.map fun node => (node.id, node))).values
    clusters := admitted.map (·.1)
    rejectedClusters := rejected.map (·.1) }

/-- Hold an election among the known nodes. -/
def elect (request : Request) (t : Tree) (known : List Node) : Except Region.Error Election := do
  let requested ← Path.parse request.region
  match t.resolve requested with
  | none => if request.strictRegion then throw (.notFound request.region) else return {}
  | some id =>
    let some path := t.path? id | throw (.notFound request.region)
    let scope := (outermostCluster t path).getD path
    let some scopeId := t.resolve scope | throw (.notFound scope.toString)
    return electWithin request t known scope scopeId

end FleetControl.Placement
