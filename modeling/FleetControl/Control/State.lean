import FleetControl.Dispatch.Batch
import FleetControl.Pass

/-!
# The state of the control plane

Every deployment has a slot with its published record, a flag that is set when it is deleted, and
a lock that passes take turns on: the process that holds it, and those that wait, first come first
served. The index says which slots are listed under which id; a slot stays after its deployment is
deleted, because processes may still refer to it.

A process serves one call of a client. It goes through stages, each of which is one step of
`Control.Step`.
-/

namespace FleetControl.Control

/-- The place of a slot. -/
abbrev SlotId := Nat

/-- The place of a process. -/
abbrev ProcId := Nat

/-- Why a call of a client failed. -/
inductive CallError where
  /-- The region of a request cannot be used. -/
  | region (error : Region.Error)
  /-- No deployment is listed under the id. -/
  | deploymentNotFound (id : String)
deriving DecidableEq

/-- The error in words. -/
def CallError.message : CallError → String
  | .region error => error.message
  | .deploymentNotFound id => "deployment not found: " ++ id

/-- A deployment as the control plane holds it. -/
structure Slot where
  /-- The published record. -/
  record : Deployment
  /-- Whether the deployment was deleted. -/
  cancelled : Bool := false
  /-- The process that holds the lock. -/
  holder : Option ProcId := none
  /-- The processes that wait for the lock, first come first. -/
  queue : List ProcId := []

/-- What a process is for. -/
inductive Errand where
  /-- The first pass after a request for a deployment was accepted. -/
  | submit (id : String)
  /-- A pass that was asked for. -/
  | trigger (id : String)
  /-- A pass of a sweep over all deployments. -/
  | sweep (id : String)
  /-- The end of a deployment. -/
  | delete (id : String)
deriving DecidableEq

/-- What a process comes to. -/
inductive Answer where
  /-- The request was accepted, and a pass has run. -/
  | accepted (id : String)
  /-- A pass has run. -/
  | reported (report : Report)
  /-- The deployment is gone; what is left of it. -/
  | deleted (final : Deployment)
  /-- The call failed. -/
  | failed (error : CallError)
  /-- The pass could not make its calls, because there are more permits than can be counted. -/
  | aborted
deriving DecidableEq

/-- How far a process is. -/
inductive Stage where
  /-- Has to look its deployment up. -/
  | lookup (id : String)
  /-- Has taken a slot out of the index and has to set its flag. -/
  | flag (slot : SlotId)
  /-- Knows its slot and has to ask for the lock. -/
  | approach (slot : SlotId)
  /-- Waits for the lock. -/
  | queued (slot : SlotId)
  /-- Has the lock and has to begin. -/
  | admitted (slot : SlotId)
  /-- Has the lock and a plan under way. -/
  | working (slot : SlotId) (pass : Pass) (batch : Batch)
  /-- Is over. -/
  | ended (answer : Answer)

/-- A process. -/
structure Proc where
  /-- What it is for. -/
  errand : Errand
  /-- How far it is. -/
  stage : Stage

/-- The state of the control plane and of what it works on. -/
structure State where
  /-- The regions. -/
  tree : Region.Tree
  /-- The known nodes. -/
  registry : Registry
  /-- How nodes and victims are chosen. -/
  selector : Placement.Selector
  /-- How calls are made. -/
  settings : EngineSettings
  /-- The container engine. -/
  engine : Engine := {}
  /-- Milliseconds since the start. -/
  now : Nat := 0
  /-- Seconds of the wall clock. -/
  wall : Nat := 0
  /-- The slot of each deployment, by id. -/
  index : SortedMap String SlotId := .empty
  /-- The slots, in the order of their creation. -/
  slots : List Slot := []
  /-- The processes, in the order of their start. -/
  procs : Array Proc := #[]

namespace State

/-- The control plane that a configuration sets up. -/
def ofConfig (c : Config) (entropy : UInt64) (wall : Nat) : Except Region.Error State := do
  return {
    tree := ← c.regionTree
    registry := .ofNodes c.boundNodes
    selector := c.placement.selector entropy
    settings := c.engine
    wall }

variable (s : State)

/-- What a pass sees of the fleet. -/
def fleet : Fleet := ⟨s.tree, s.registry, s.selector, s.wall⟩

/-! ### Reading -/

/-- The published record of a deployment. -/
def record? (id : String) : Option Deployment := do
  let slot ← s.index.get? id
  return (← s.slots[slot]?).record

/-- The published records, by id. -/
def records : List Deployment := s.index.keys.filterMap s.record?

/-- What a process came to, if it is over. -/
def answer? (p : ProcId) : Option Answer :=
  match s.procs[p]? with
  | some ⟨_, .ended answer⟩ => some answer
  | _ => none

/-- What the processes of a sweep came to, if all are over. One that was aborted gives nothing. -/
def results? (started : List (String × ProcId)) : Option (List (String × Answer)) := do
  let answers ← started.mapM fun (id, p) => (s.answer? p).map (id, ·)
  return answers.filter fun (_, answer) => answer != .aborted

/-- Whether a process has the lock of its slot and has not begun. -/
def isAdmitted (p : ProcId) : Bool := (s.procs[p]?).any fun proc => proc.stage matches .admitted _

/-- The plan that a process has under way. -/
def batch? (p : ProcId) : Option Batch :=
  match s.procs[p]? with
  | some ⟨_, .working _ _ batch⟩ => some batch
  | _ => none

/-! ### Changing -/

/-- Change a slot. -/
def modifySlot (slot : SlotId) (f : Slot → Slot) : State :=
  { s with slots := s.slots.modify slot f }

/-- Put a process at a stage. -/
def setStage (p : ProcId) (stage : Stage) : State :=
  { s with procs := s.procs.modify p fun proc => { proc with stage } }

/-- Start a process at a stage. -/
def spawn (errand : Errand) (stage : Stage) : State × ProcId :=
  ({ s with procs := s.procs.push ⟨errand, stage⟩ }, s.procs.size)

/-- Add a slot. -/
def addSlot (slot : Slot) : State × SlotId :=
  ({ s with slots := s.slots ++ [slot] }, s.slots.length)

/-- Give the lock of a slot back; the first that waits gets it. -/
def release (slot : SlotId) : State :=
  match s.slots[slot]? with
  | none => s
  | some ⟨_, _, _, []⟩ => s.modifySlot slot fun sl => { sl with holder := none }
  | some ⟨_, _, _, next :: rest⟩ =>
    (s.modifySlot slot fun sl => { sl with holder := some next, queue := rest }).setStage next
      (.admitted slot)

end State

end FleetControl.Control
