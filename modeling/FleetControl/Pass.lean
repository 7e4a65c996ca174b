import FleetControl.Config
import FleetControl.Dispatch
import FleetControl.Placement.Election
import FleetControl.Registry

/-!
# Reconciliation passes

A pass brings a deployment closer to what is wanted of it.

1. Instances whose node left the registry are dropped.
2. The demand is the scale less the number of matched instances. A positive demand holds an
   election and creates instances, a negative one removes some.
3. Stale instances are removed as far as the matched ones have replaced them.
4. The deployment has converged if as many instances match as are wanted and none is stale.

A pass is a plan of dispatches at a time: `Pass.begin` makes the first plan, and `Pass.conclude`
takes the outcomes of a plan and goes on to the next plan or to the end.
-/

namespace FleetControl

open Placement (Selector)

/-- What a pass sees of the fleet. -/
structure Fleet where
  /-- The regions. -/
  tree : Region.Tree
  /-- The known nodes. -/
  registry : Registry
  /-- How nodes and victims are chosen. -/
  selector : Selector
  /-- The wall clock, in seconds. -/
  wall : Nat

/-- What a plan of dispatches is for. -/
inductive Phase where
  /-- Create or remove instances to meet the scale. -/
  | scale
  /-- Remove stale instances. -/
  | retire
  /-- Remove all instances. -/
  | drain
deriving DecidableEq, Inhabited

/-- A pass under way. -/
structure Pass where
  /-- The working copy of the record. -/
  work : Deployment
  /-- What the pass did so far. -/
  report : Report
  /-- What the plan is for. -/
  phase : Phase
  /-- The dispatches to be made now. -/
  plan : List Dispatch

/-- What comes next in a pass. -/
inductive Progress where
  /-- The dispatches of a plan have to be made. -/
  | dispatching (pass : Pass)
  /-- The pass is over. -/
  | finished (work : Deployment) (report : Report)

namespace Report

/-- The report of a pass that starts. -/
def start (d : Deployment) (now : Nat) : Report where
  deploymentId := d.id
  desired := d.scale
  state := d.state
  startedAt := now

end Report

namespace Pass

/-! ### Folding outcomes -/

/-- Take one outcome into the record and the report. -/
def fold (now : Nat) (p : Deployment × Report) (o : Outcome) : Deployment × Report :=
  let (d, r) := p
  match o.dispatch, o.result with
  | .create node _ seq, .ok handle =>
    let created : Instance := ⟨d.instanceId seq, node.id, handle, d.specFingerprint, now, seq⟩
    ({ d with instances := d.instances ++ [created] }, { r with created := r.created + 1 })
  | .remove target stale, .ok _ =>
    ({ d with instances := d.instances.filter (·.id != target.id) },
      if stale then { r with staleRemoved := r.staleRemoved + 1 }
      else { r with removed := r.removed + 1 })
  | _, .error .cancelled => (d, { r with cancelled := true, skipped := r.skipped + 1 })
  | dispatch, .error error =>
    (d.recordFailure ⟨dispatch.nodeId, dispatch.kind, dispatch.instanceId, error.message, now⟩,
      { r with failed := r.failed + 1 })

/-- Take the outcomes of the plan into the record and the report. -/
def foldAll (now : Nat) (outcomes : List Outcome) (p : Pass) : Pass :=
  let (work, report) := outcomes.foldl (fold now) (p.work, p.report)
  { p with work, report }

/-! ### Phases -/

/-- End a pass that aimed at a number of matched instances. -/
def finish (now target : Nat) (p : Pass) : Progress :=
  let d := p.work
  let converged := d.matched.length == target && d.stale.isEmpty
  let state : DeploymentState := if converged then .converged else .degraded
  let report := { p.report with instances := d.instances.length, state, finishedAt := now }
  .finished
    { d with
      state
      consecutiveDegradedPasses := if converged then 0 else d.consecutiveDegradedPasses + 1
      lastReconciledAt := some now
      lastReport := some report }
    report

/-- The stale instances to be removed: as many as there are instances beyond the scale. Their number
is not cut to 32 bits here, which makes no difference for fewer than `2 ^ 32` stale instances. -/
def retirees (selector : Selector) (d : Deployment) : List Instance :=
  let stale := d.stale
  let beyond := d.matched.length + stale.length - d.scale
  selector.selectVictims stale (min beyond stale.length)

/-- Go on after a plan that is carried out, or has nothing in it. -/
def proceed (f : Fleet) (p : Pass) : Progress :=
  match p.phase with
  | .scale =>
    match (retirees f.selector p.work).map (Dispatch.remove · true) with
    | [] => p.finish f.wall p.work.scale
    | plan => .dispatching { p with phase := .retire, plan }
  | .retire => p.finish f.wall p.work.scale
  | .drain => p.finish f.wall 0

/-- Go on with a plan, unless it has nothing in it. -/
def launch (f : Fleet) (p : Pass) : Progress :=
  if p.plan.isEmpty then p.proceed f else .dispatching p

/-- Take the outcomes of the plan and go on. -/
def conclude (f : Fleet) (outcomes : List Outcome) (p : Pass) : Progress :=
  (p.foldAll f.wall outcomes).proceed f

/-! ### Beginning -/

/-- Drop the instances whose node is unknown. -/
def dropLost (registry : Registry) (d : Deployment) : Deployment :=
  { d with instances := d.instances.filter fun i => (registry.lookup i.nodeId).isSome }

/-- The dispatches that create instances on nodes, under consecutive sequence numbers. -/
def creations (spec : ContainerSpec) (seq : Nat) : List Node → List Dispatch
  | [] => []
  | node :: rest => .create node spec seq :: creations spec (seq + 1) rest

/-- Plan to create instances on targets. -/
def planCreate (d : Deployment) (r : Report) (eligible : Nat) (targets : Placement.Targets) :
    Pass where
  work := { d with
    nextSeq := d.nextSeq + targets.nodes.length
    warnings :=
      if targets.isPartial then
        [.underProvisioned (targets.nodes.length + targets.shortfall) eligible targets.shortfall]
      else [] }
  report := { r with shortfall := targets.shortfall }
  phase := .scale
  plan := creations d.request.container d.nextSeq targets.nodes

/-- Plan what a demand comes to. -/
def planScale (d : Deployment) (r : Report) (eligible : Nat) : Placement.Selection → Pass
  | .nothing => ⟨d, r, .scale, []⟩
  | .create targets => planCreate d r eligible targets
  | .remove victims => ⟨d, r, .scale, victims.map (Dispatch.remove · false)⟩

/-- The scale less the number of matched instances. -/
def demand (d : Deployment) : Int := d.scale - d.matched.length

/-- The start of a pass. -/
inductive Opening where
  /-- The election failed; the record is left as it was by then. -/
  | failed (work : Deployment) (error : Region.Error)
  /-- The first plan is made, and the selector has drawn for it. -/
  | planned (pass : Pass) (selector : Selector)

/-- Begin a pass on a copy of a record. -/
def start (f : Fleet) (d : Deployment) : Opening :=
  let kept := dropLost f.registry { d with warnings := [] }
  let report := { Report.start d f.wall with lost := d.instances.length - kept.instances.length }
  let busy := demand kept != 0 || !kept.stale.isEmpty
  let kept := if busy then { kept with state := .converging } else kept
  if demand kept ≤ 0 then
    let (selection, selector) := f.selector.select [] kept.matched (demand kept)
    .planned (planScale kept report 0 selection) selector
  else
    match Placement.elect kept.request f.tree f.registry.list with
    | .error e => .failed kept e
    | .ok election =>
      let eligible := election.nodes.length
      let kept := { kept with targetRegions := election.targetRegions }
      let report := { report with eligible := some eligible }
      let (selection, selector) := f.selector.select election.nodes kept.matched (demand kept)
      .planned (planScale kept report eligible selection) selector

/-- Begin to remove every instance of a record. -/
def startDrain (now : Nat) (d : Deployment) : Pass where
  work := d
  report := { Report.start d now with desired := 0 }
  phase := .drain
  plan := d.instances.map (Dispatch.remove · false)

end Pass

end FleetControl
