import FleetControl.Dispatch

/-!
# Batches

The dispatches of a batch are handed out in order, each with one of a limited number of permits,
which it gives back when its call is over. A call that has begun either takes effect when the
latency of its node is over, or is given up without effect when the time limit is shorter.

A batch moves in four ways: `handOut` gives a permit to the next dispatch, or cancels all that are
left; `start` begins a call that has a permit; `settle` ends one whose time has come; and time goes
by. Cancellation is looked at when a permit is at hand.
-/

namespace FleetControl

/-- How far a dispatch is. -/
inductive CallStatus where
  /-- Without a permit. -/
  | pending
  /-- With a permit, the call not begun. -/
  | issued
  /-- Begun; its end comes at a time, then it was given up or takes effect. -/
  | running (due : Nat) (givenUp : Bool)
  /-- Over. -/
  | done (result : Except DispatchError String)

/-- A dispatch of a batch. -/
structure Call where
  /-- The dispatch. -/
  dispatch : Dispatch
  /-- How far it is. -/
  status : CallStatus := .pending

namespace Call

/-- The call has no permit yet. -/
def isPending (c : Call) : Bool := c.status matches .pending

/-- The call holds a permit. -/
def isInFlight (c : Call) : Bool := c.status matches .issued | .running ..

/-- The call is over. -/
def isDone (c : Call) : Bool := c.status matches .done _

/-- A call that is still pending is cancelled. -/
def cancel (c : Call) : Call :=
  if c.isPending then { c with status := .done (.error .cancelled) } else c

/-- The outcome of a call that is over. -/
def outcome? (c : Call) : Option Outcome :=
  match c.status with
  | .done result => some ⟨c.dispatch, result⟩
  | _ => none

end Call

/-- Dispatches under way together. -/
structure Batch where
  /-- How many calls may hold a permit at a time. -/
  permits : Nat
  /-- Time limit of a call, in milliseconds. -/
  timeout : Nat
  /-- The calls, in the order of the plan. -/
  calls : List Call

namespace Batch

/-- A batch of dispatches, none of them begun. There is at least one permit. -/
def ofPlan (limit timeout : Nat) (plan : List Dispatch) : Batch where
  permits := max limit 1
  timeout
  calls := plan.map fun dispatch => { dispatch }

/-- The largest number of permits that can be counted. -/
def maxPermits : Nat := UInt64.size / 8 - 1

/-- Number of calls that hold a permit. -/
def inFlight (b : Batch) : Nat := b.calls.countP Call.isInFlight

/-- Whether all calls are over. -/
def isDone (b : Batch) : Bool := b.calls.all Call.isDone

/-- Give the status of the first pending call. -/
def issueFirst : List Call → List Call
  | [] => []
  | c :: rest =>
    if c.isPending then { c with status := .issued } :: rest else c :: issueFirst rest

/-- Give a permit to the next dispatch, or cancel all that are left. None if no dispatch is left or
no permit is free. -/
def handOut (cancelled : Bool) (b : Batch) : Option Batch :=
  if b.calls.any Call.isPending && b.inFlight < b.permits then
    if cancelled then some { b with calls := b.calls.map Call.cancel }
    else some { b with calls := issueFirst b.calls }
  else none

/-- Put another status on a call. -/
def setStatus (b : Batch) (i : Nat) (status : CallStatus) : Batch :=
  { b with calls := b.calls.modify i fun c => { c with status } }

/-- Begin a call that has a permit. It is counted, and one without latency takes effect at once. -/
def start (i now : Nat) (b : Batch) (e : Engine) : Option (Batch × Engine) :=
  match b.calls[i]? with
  | some ⟨dispatch, .issued⟩ =>
    let e := e.count dispatch.kind
    let latency := e.latencyOf dispatch.nodeId
    if latency = 0 then
      let (e, result) := dispatch.perform e
      some (b.setStatus i (.done result), e)
    else if b.timeout = 0 then some (b.setStatus i (.done (.error (.timeout 0))), e)
    else some (b.setStatus i (.running (now + min latency b.timeout) (b.timeout < latency)), e)
  | _ => none

/-- End a call whose time has come. -/
def settle (i now : Nat) (b : Batch) (e : Engine) : Option (Batch × Engine) :=
  match b.calls[i]? with
  | some ⟨dispatch, .running due givenUp⟩ =>
    if now < due then none
    else if givenUp then some (b.setStatus i (.done (.error (.timeout b.timeout))), e)
    else
      let (e, result) := dispatch.perform e
      some (b.setStatus i (.done result), e)
  | _ => none

/-- The outcomes of the calls that are over, in the order of the plan. -/
def outcomes (b : Batch) : List Outcome := b.calls.filterMap Call.outcome?

end Batch

end FleetControl
