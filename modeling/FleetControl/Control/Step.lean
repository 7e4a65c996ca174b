import FleetControl.Control.State

/-!
# Steps of the control plane

The control plane moves by labelled steps, `Control.step`: a client calls, a process goes on, a
call to the container engine begins or ends, time goes by, or the world changes. Whatever the order
of the steps, each touches the shared state once, so the sequences of steps are the interleavings
of the processes.

* `State.accept` takes a request, `State.submit`, `State.trigger`, `State.delete` and `State.sweep`
  start processes;
* `State.advance` takes a process one stage further.
-/

namespace FleetControl.Control

namespace State

variable (s : State)

/-! ### Requests -/

/-- A request can be placed as it is written: its region has a readable path and, if the request
insists on it, exists. -/
def validate (request : Request) : Except Region.Error Unit := do
  let path ← Region.Path.parse request.region
  if request.strictRegion && (s.tree.resolve path).isNone then throw (.notFound request.region)

/-- The id of the deployment that a request asks for; a fresh one if it names none. -/
def chooseId (request : Request) (fresh : String) : String :=
  match request.deploymentId with
  | some id => if Text.isBlank id then fresh else id
  | none => fresh

/-- The record of a request that can be placed. -/
def prepare (request : Request) (fresh : String) : Except Region.Error Deployment := do
  s.validate request
  return .new (chooseId request fresh) request s.settings.errorLogCapacity.toNat s.wall

/-- The deployment that a request replaces the desired state of. -/
def existing (request : Request) : Option (String × SlotId) := do
  let id ← request.deploymentId
  return (id, ← s.index.get? id)

/-- Accept a request, for the deployment it names or for a new one. -/
def accept (request : Request) (fresh : String) : Except Region.Error (State × String) := do
  s.validate request
  match s.existing request with
  | some (id, slot) =>
    return (s.modifySlot slot fun sl => { sl with record := sl.record.update request }, id)
  | none =>
    let record ← s.prepare request fresh
    let (s, slot) := s.addSlot { record }
    return ({ s with index := s.index.insert record.id slot }, record.id)

/-! ### Calls of clients -/

/-- Accept a request and start its first pass. -/
def submit (request : Request) (fresh : String) : State × ProcId :=
  match s.accept request fresh with
  | .error e => s.spawn (.submit fresh) (.ended (.failed (.region e)))
  | .ok (s, id) => s.spawn (.submit id) (.lookup id)

/-- Start a pass of a deployment. -/
def trigger (id : String) : State × ProcId := s.spawn (.trigger id) (.lookup id)

/-- Take a deployment out of the index and start its end. -/
def delete (id : String) : State × ProcId :=
  match s.index.get? id with
  | none => s.spawn (.delete id) (.ended (.failed (.deploymentNotFound id)))
  | some slot => { s with index := s.index.erase id }.spawn (.delete id) (.flag slot)

/-- Start a pass of every deployment that is listed. -/
def sweep : State × List (String × ProcId) :=
  s.index.toList.foldl (fun (s, started) (id, slot) =>
    let (s, p) := s.spawn (.sweep id) (.approach slot)
    (s, started ++ [(id, p)])) (s, [])

/-! ### Processes -/

/-- The answer of a pass that went through. -/
def answerOf (errand : Errand) (work : Deployment) (report : Report) : Answer :=
  match errand with
  | .submit id => .accepted id
  | .trigger _ | .sweep _ => .reported report
  | .delete _ => .deleted work

/-- Publish the outcome of a pass. -/
def publish (slot : SlotId) (work : Deployment) : State :=
  s.modifySlot slot fun sl => { sl with record := sl.record.absorb work }

/-- End a process that holds a lock. -/
def endProc (p : ProcId) (slot : SlotId) (answer : Answer) : State :=
  (s.setStage p (.ended answer)).release slot

/-- Take a process to what comes next in its pass. What a pass leaves is published; what the end of
a deployment leaves is only answered. -/
def follow (p : ProcId) (errand : Errand) (slot : SlotId) : Progress → State
  | .dispatching pass =>
    let batch := Batch.ofPlan s.settings.maxConcurrentDispatches.toNat
      s.settings.dispatchTimeoutMs.toNat pass.plan
    if Batch.maxPermits < batch.permits then s.endProc p slot .aborted
    else s.setStage p (.working slot pass batch)
  | .finished work report =>
    let s := match errand with
      | .delete _ => s
      | _ => s.publish slot work
    s.endProc p slot (answerOf errand work report)

/-- Ask for the lock of a slot. -/
def enqueue (p : ProcId) (slot : SlotId) (sl : Slot) : State :=
  match sl.holder with
  | none =>
    (s.modifySlot slot fun sl => { sl with holder := some p }).setStage p (.admitted slot)
  | some _ =>
    (s.modifySlot slot fun sl => { sl with queue := sl.queue ++ [p] }).setStage p (.queued slot)

/-- Begin a pass on a copy of the published record. -/
def startPass (p : ProcId) (errand : Errand) (slot : SlotId) (sl : Slot) : State :=
  let record :=
    if sl.record.needsConvergence then { sl.record with state := .converging } else sl.record
  let s := s.modifySlot slot fun sl => { sl with record }
  match Pass.start s.fleet record with
  | .failed work e => (s.publish slot work).endProc p slot (.failed (.region e))
  | .planned pass selector =>
    let s := { s with selector }
    s.follow p errand slot (pass.launch s.fleet)

/-- Begin to remove the instances of a deployment that is deleted. -/
def startDrain (p : ProcId) (errand : Errand) (slot : SlotId) (sl : Slot) : State :=
  s.follow p errand slot ((Pass.startDrain s.wall sl.record).launch s.fleet)

/-- Whether the calls of a process are no longer to be made. The end of a deployment is not itself
cancelled. -/
def isCancelled (errand : Errand) (sl : Slot) : Bool :=
  match errand with
  | .delete _ => false
  | _ => sl.cancelled

/-- Hand out the next dispatch of a plan, or go on when all calls are over. -/
def proceed (p : ProcId) (errand : Errand) (slot : SlotId) (sl : Slot) (pass : Pass)
    (batch : Batch) : Option State :=
  match batch.handOut (isCancelled errand sl) with
  | some batch => some (s.setStage p (.working slot pass batch))
  | none =>
    if batch.isDone then some (s.follow p errand slot (pass.conclude s.fleet batch.outcomes))
    else none

/-- Take a process one stage further, unless it waits or is over. -/
def advance (p : ProcId) : Option State := do
  let ⟨errand, stage⟩ ← s.procs[p]?
  match stage with
  | .lookup id =>
    match s.index.get? id with
    | none => return s.setStage p (.ended (.failed (.deploymentNotFound id)))
    | some slot => return s.setStage p (.approach slot)
  | .flag slot =>
    return (s.modifySlot slot fun sl => { sl with cancelled := true }).setStage p (.approach slot)
  | .approach slot => return s.enqueue p slot (← s.slots[slot]?)
  | .queued _ => none
  | .admitted slot =>
    let sl ← s.slots[slot]?
    match errand with
    | .delete _ => return s.startDrain p errand slot sl
    | _ => return s.startPass p errand slot sl
  | .working slot pass batch => s.proceed p errand slot (← s.slots[slot]?) pass batch
  | .ended _ => none

/-! ### Calls to the container engine -/

/-- Move a call of the plan of a process. -/
def moveCall (p : ProcId) (move : Batch → Engine → Option (Batch × Engine)) : Option State := do
  let ⟨_, stage⟩ ← s.procs[p]?
  match stage with
  | .working slot pass batch =>
    let (batch, engine) ← move batch s.engine
    return { s with engine }.setStage p (.working slot pass batch)
  | _ => none

/-- Begin a call that was handed out. -/
def startCall (p : ProcId) (i : Nat) : Option State := s.moveCall p (Batch.start i s.now)

/-- End a call whose time has come. -/
def settleCall (p : ProcId) (i : Nat) : Option State := s.moveCall p (Batch.settle i s.now)

end State

/-! ### Steps -/

/-- A change of the world around the control plane. -/
inductive Change where
  | register (node : Node)
  | deregister (id : String)
  | setHealthy (id : String) (healthy : Bool)
  | setLabel (id key value : String)
  | declare (declaration : Region.Declaration)
  | createRegion (path : String)
  | configure (region : Region.RegionId) (settings : Region.Settings)
  | fail (nodeId : String)
  | recover (nodeId : String)
  | setLatency (nodeId : String) (ms : Nat)
  | kill (handle : String)
  | setWall (seconds : Nat)

/-- Carry out a change. Changes of regions that are refused change nothing. -/
def Change.apply (s : State) : Change → State
  | .register node => { s with registry := s.registry.upsert node }
  | .deregister id => { s with registry := s.registry.remove id }
  | .setHealthy id healthy => { s with registry := s.registry.setHealthy id healthy }
  | .setLabel id key value => { s with registry := s.registry.setLabel id key value }
  | .declare d => { s with tree := ((s.tree.declare d).toOption).getD s.tree }
  | .createRegion path => { s with tree := ((s.tree.createText path).toOption.map (·.1)).getD s.tree }
  | .configure region settings =>
    { s with tree := ((s.tree.updateSettings region fun _ => settings).toOption).getD s.tree }
  | .fail nodeId => { s with engine := s.engine.fail nodeId }
  | .recover nodeId => { s with engine := s.engine.recover nodeId }
  | .setLatency nodeId ms => { s with engine := s.engine.setLatency nodeId ms }
  | .kill handle => { s with engine := s.engine.kill handle }
  | .setWall wall => { s with wall }

/-- What happens in a step. -/
inductive Label where
  /-- A client submits a request; the id is for a deployment without one. -/
  | submit (request : Request) (fresh : String)
  /-- A client asks for a pass. -/
  | trigger (id : String)
  /-- A client deletes a deployment. -/
  | delete (id : String)
  /-- A client asks for a pass of every deployment. -/
  | sweep
  /-- A process goes on. -/
  | advance (p : ProcId)
  /-- A call to the container engine begins. -/
  | startCall (p : ProcId) (i : Nat)
  /-- A call to the container engine ends. -/
  | settleCall (p : ProcId) (i : Nat)
  /-- Time goes by until an instant. -/
  | elapse (instant : Nat)
  /-- The world changes. -/
  | change (c : Change)

/-- One step. -/
def step (s : State) : Label → Option State
  | .submit request fresh => some (s.submit request fresh).1
  | .trigger id => some (s.trigger id).1
  | .delete id => some (s.delete id).1
  | .sweep => some s.sweep.1
  | .advance p => s.advance p
  | .startCall p i => s.startCall p i
  | .settleCall p i => s.settleCall p i
  | .elapse instant => if s.now ≤ instant then some { s with now := instant } else none
  | .change c => some (c.apply s)

/-- The state after a sequence of steps. -/
def run (s : State) (labels : List Label) : Option State := labels.foldlM step s

end FleetControl.Control
