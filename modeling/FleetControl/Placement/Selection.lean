import FleetControl.Placement.Policy
import FleetControl.Placement.Victims

/-!
# Selection

A selector turns a demand into nodes that receive a new instance or instances to remove. In one
selection a node receives at most one instance, and none if it hosts as many as the cap allows;
what cannot be placed is the shortfall.
-/

namespace FleetControl.Placement

/-- A placement policy, a victim policy and a cap. -/
structure Selector where
  /-- How nodes are ranked. -/
  policy : Policy := .spread
  /-- How victims are chosen. -/
  victims : VictimPolicy := .mostLoadedOldestFirst
  /-- The most instances of a deployment that a node may host. -/
  maxInstancesPerNode : Option UInt32 := none
deriving DecidableEq, Inhabited

/-- Nodes that receive a new instance, in order. -/
structure Targets where
  /-- The nodes. -/
  nodes : List Node := []
  /-- The demand left over. -/
  shortfall : Nat := 0
deriving DecidableEq, Inhabited

/-- Whether some demand is left over. -/
def Targets.isPartial (targets : Targets) : Bool := 0 < targets.shortfall

/-- What a demand comes to. -/
inductive Selection where
  | nothing
  | create (targets : Targets)
  | remove (victims : List Instance)
deriving DecidableEq, Inhabited

/-- The largest demand that one selection considers. -/
def maxDemand : Nat := UInt32.size - 1

namespace Selector

/-- The cap leaves room for another instance on a node. -/
def hasRoom (s : Selector) (load : SortedMap String Nat) (node : Node) : Bool :=
  match s.maxInstancesPerNode with
  | some cap => Policy.loadOf load node < cap.toNat
  | none => true

/-- Choose up to `demand` nodes, and the selector after the draws. -/
def selectTargets (s : Selector) (eligible : List Node) (current : List Instance) (demand : Nat) :
    Targets × Selector :=
  if demand = 0 then ({}, s)
  else
    let load := loadByNode current
    let (ranked, policy) := s.policy.rank (eligible.filter (s.hasRoom load)) load
    let nodes := ranked.take demand
    ({ nodes, shortfall := demand - nodes.length }, { s with policy })

/-- Choose up to `n` instances to remove. -/
def selectVictims (s : Selector) (current : List Instance) (n : Nat) : List Instance :=
  s.victims.choose current n

/-- Meet a demand: nodes for a positive one, victims for a negative one. -/
def select (s : Selector) (eligible : List Node) (current : List Instance) (demand : Int) :
    Selection × Selector :=
  if demand = 0 then (.nothing, s)
  else if 0 < demand then
    let (targets, s) := s.selectTargets eligible current (min demand.toNat maxDemand)
    (.create targets, s)
  else (.remove (s.selectVictims current (min demand.natAbs maxDemand)), s)

end Selector

end FleetControl.Placement
