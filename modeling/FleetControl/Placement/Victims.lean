import FleetControl.Instance

/-!
# Victim policies

A victim policy chooses the instances to remove when there are too many.

* `drainMostLoaded` takes one after the other the oldest instance of the node that hosts most,
  the lower id on ties, so that the load becomes level;
* `newest` takes the newest, wherever they are.
-/

namespace FleetControl.Placement

/-- How instances are chosen for removal. -/
inductive VictimPolicy where
  | mostLoadedOldestFirst
  | newestFirst
deriving DecidableEq, Inhabited

/-- The name of the policy. -/
def VictimPolicy.name : VictimPolicy → String
  | .mostLoadedOldestFirst => "most-loaded-oldest-first"
  | .newestFirst => "newest-first"

/-- Instances from the newest to the oldest. -/
def newestToOldest (instances : List Instance) : List Instance :=
  instances.mergeSort fun a b => (Instance.compareAge b a).isLE

/-- The instances of each node, in the order given. -/
def groupByNode (instances : List Instance) : SortedMap String (List Instance) :=
  instances.foldl (fun groups i =>
    groups.insert i.nodeId ((groups.get? i.nodeId).getD [] ++ [i])) .empty

/-- The group with most members; of several the first. -/
def fullest : List (String × List Instance) → Option (String × List Instance)
  | [] => none
  | group :: rest =>
    match fullest rest with
    | some other => if group.2.length < other.2.length then some other else some group
    | none => some group

/-- Take up to `n` instances, each time the first of the fullest group. -/
def drain : Nat → SortedMap String (List Instance) → List Instance
  | 0, _ => []
  | n + 1, groups =>
    match fullest groups.toList with
    | some (nodeId, oldest :: rest) => oldest :: drain n (groups.insert nodeId rest)
    | _ => []

/-- Up to `n` instances, each time the oldest of the node that hosts most of those left. -/
def drainMostLoaded (instances : List Instance) (n : Nat) : List Instance :=
  let groups := (groupByNode instances).toList.map fun (nodeId, group) =>
    (nodeId, (newestToOldest group).reverse)
  drain (min n instances.length) (SortedMap.ofList groups)

/-- The `n` newest instances. -/
def newest (instances : List Instance) (n : Nat) : List Instance :=
  (newestToOldest instances).take n

/-- Up to `n` instances to remove. -/
def VictimPolicy.choose : VictimPolicy → List Instance → Nat → List Instance
  | .mostLoadedOldestFirst => drainMostLoaded
  | .newestFirst => newest

end FleetControl.Placement
