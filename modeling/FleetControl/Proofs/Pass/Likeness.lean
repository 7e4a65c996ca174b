import FleetControl.Proofs.Dispatch.Verdict
import FleetControl.Proofs.Pass.Course
import Mathlib.Logic.Relation

/-!
# Passes that are alike

Two passes may differ in what the clock shows and in the handles that the container engine gives
out, and still do the same. What is left of records, reports and passes without these is called
*bare*: `Deployment.bare` strips the matched instances, among which are all that a pass creates, and
leaves the stale ones as they are, because a pass chooses among them by age.

Taking outcomes into a bare pass gives the bare outcome, on a fleet whose clock stands still
(`Pass.bare_conclude`), and a pass begins alike whatever the clock shows (`Pass.bare_start`).
`Progress.Leads` follows a pass from plan to plan when it is known what comes of each dispatch; it
leads to one end at most (`Progress.Leads.unique`).
-/

namespace FleetControl

/-! ### What is left without clocks and handles -/

/-- The instance without its handle and the time of its creation. -/
def Instance.bare (i : Instance) : Instance := { i with handle := "", createdAt := 0 }

/-- The failure without its time. -/
def Failure.bare (f : Failure) : Failure := { f with occurredAt := 0 }

/-- The report without the times of the pass. -/
def Report.bare (r : Report) : Report := { r with startedAt := 0, finishedAt := 0 }

/-- The fleet with its clock at the beginning. -/
def Fleet.still (f : Fleet) : Fleet := { f with wall := 0 }

namespace Deployment

/-- The instance, bare if it is matched. -/
def bareMatched (d : Deployment) (i : Instance) : Instance := if d.isMatched i then i.bare else i

/-- The record without the handles and times of its matched instances, and without the times of its
failures and of its last pass. -/
def bare (d : Deployment) : Deployment :=
  { d with
    instances := d.instances.map d.bareMatched
    errorLog := d.errorLog.map Failure.bare
    lastReconciledAt := d.lastReconciledAt.map fun _ => 0
    lastReport := d.lastReport.map Report.bare }

variable (d : Deployment) (i : Instance)

@[simp] theorem id_bareMatched : (d.bareMatched i).id = i.id := by
  unfold bareMatched
  split <;> rfl

@[simp] theorem isMatched_bareMatched : d.isMatched (d.bareMatched i) = d.isMatched i := by
  unfold bareMatched
  split <;> rfl

@[simp] theorem isMatched_bare : d.bare.isMatched = d.isMatched := rfl

@[simp] theorem scale_bare : d.bare.scale = d.scale := rfl

@[simp] theorem instanceId_bare : d.bare.instanceId = d.instanceId := rfl

@[simp] theorem length_matched_bare : d.bare.matched.length = d.matched.length := by
  rw [length_matched, length_matched, isMatched_bare, bare, List.countP_map]
  exact congrArg (List.countP · d.instances) (funext d.isMatched_bareMatched)

/-- Stale instances stay as they are. -/
@[simp] theorem stale_bare : d.bare.stale = d.stale := by
  have hstale : ((fun i => !d.isMatched i) ∘ d.bareMatched) = fun i => !d.isMatched i := by
    funext i
    simp
  rw [stale, stale, isMatched_bare, bare, List.filter_map, hstale]
  refine (List.map_congr_left fun i hi => ?_).trans (List.map_id _)
  rw [bareMatched, if_neg (by simpa using (List.mem_filter.1 hi).2)]
  rfl

end Deployment

namespace Pass

open Deployment (CopyOf)

/-- The pass with a bare record and a bare report. -/
def bare (p : Pass) : Pass := { p with work := p.work.bare, report := p.report.bare }

end Pass

/-- The record as the pass has it. -/
def Progress.work : Progress → Deployment
  | .dispatching pass => pass.work
  | .finished work _ => work

/-- What comes next in a bare pass. -/
def Progress.bare : Progress → Progress
  | .dispatching pass => .dispatching pass.bare
  | .finished work report => .finished work.bare report.bare

namespace Pass

/-! ### Bare passes -/

/-- A failure is noted alike at any time. -/
theorem bare_recordFailure (d : Deployment) (f : Failure) :
    (d.recordFailure f).bare = d.bare.recordFailure f.bare := by
  have hlog : (d.errorLog.drop (d.errorLog.length + 1 - d.errorLogCapacity) ++ [f]).map Failure.bare =
      d.bare.errorLog.drop (d.bare.errorLog.length + 1 - d.errorLogCapacity) ++ [f.bare] := by
    rw [Deployment.bare, List.length_map, List.map_append, List.map_drop, List.map_singleton]
  exact congrArg (fun errorLog => { d.bare with errorLog }) hlog

theorem fold_failed (now : Nat) (d : Deployment) (r : Report) (x : Dispatch) {e : DispatchError}
    (h : e ≠ .cancelled) : fold now (d, r) ⟨x, .error e⟩ =
      (d.recordFailure ⟨x.nodeId, x.kind, x.instanceId, e.message, now⟩,
        { r with failed := r.failed + 1 }) := by
  cases e with
  | cancelled => exact absurd rfl h
  | _ => cases x <;> rfl

/-- An outcome is taken alike at any time, and under any handle. -/
theorem bare_fold (now : Nat) (d : Deployment) (r : Report) (o : Outcome) :
    fold 0 (d.bare, r.bare) o.bare =
      ((fold now (d, r) o).1.bare, (fold now (d, r) o).2.bare) := by
  obtain ⟨x, result⟩ := o
  cases result with
  | ok handle =>
    cases x with
    | create node spec seq =>
      -- what is created is matched, so it is stripped
      have hcreated : d.bareMatched ⟨d.instanceId seq, node.id, handle, d.specFingerprint, now, seq⟩ =
          ⟨d.instanceId seq, node.id, "", d.specFingerprint, 0, seq⟩ :=
        if_pos (beq_self_eq_true _)
      have hinst : ∀ i, (d.instances ++ [i]).map d.bareMatched = d.bare.instances ++ [d.bareMatched i] :=
        fun i => List.map_append
      have hinst := hinst ⟨d.instanceId seq, node.id, handle, d.specFingerprint, now, seq⟩
      rw [hcreated] at hinst
      exact Prod.ext (congrArg (fun instances => { d.bare with instances }) hinst.symm) rfl
    | remove target stale =>
      have hinst : (d.instances.filter (·.id != target.id)).map d.bareMatched =
          d.bare.instances.filter (·.id != target.id) := by
        rw [Deployment.bare, List.filter_map]
        congr 2
        funext i
        simp
      refine Prod.ext ?_ ?_
      · exact congrArg (fun instances => { d.bare with instances }) hinst.symm
      · cases stale <;> rfl
  | error e =>
    by_cases he : e = .cancelled
    · subst he
      cases x <;> rfl
    · rw [fold_failed now d r x he, bare_recordFailure]
      exact fold_failed 0 d.bare r.bare x he

theorem bare_take (now : Nat) (o : Outcome) (p : Pass) :
    (p.take now o).bare = p.bare.take 0 o.bare := by
  have hfold := bare_fold now p.work p.report o
  simp only [take, bare, hfold]

theorem foldAll_eq (now : Nat) (o : Outcome) (outcomes : List Outcome) (p : Pass) :
    p.foldAll now (o :: outcomes) = { (p.take now o).foldAll now outcomes with plan := p.plan } := rfl

theorem bare_foldAll (now : Nat) (outcomes : List Outcome) (p : Pass) :
    (p.foldAll now outcomes).bare = p.bare.foldAll 0 (outcomes.map Outcome.bare) := by
  induction outcomes generalizing p with
  | nil => rfl
  | cons o outcomes ih =>
    have hrest := ih (p.take now o)
    rw [bare_take] at hrest
    rw [List.map_cons, foldAll_eq, foldAll_eq, ← hrest]
    rfl

/-- A bare pass is ended as the pass is. -/
theorem bare_finish (now target : Nat) (p : Pass) :
    (p.finish now target).bare = p.bare.finish 0 target := by
  have hlength : p.bare.work.instances.length = p.work.instances.length := List.length_map _
  have hmatched := p.work.length_matched_bare
  have hstale := p.work.stale_bare
  simp only [finish, Progress.bare]
  rw [hlength, show p.bare.work = p.work.bare from rfl, hmatched, hstale]
  rfl

/-- The stale instances are chosen alike. -/
theorem bare_proceed (f : Fleet) (p : Pass) :
    (p.proceed f).bare = p.bare.proceed f.still := by
  have hretirees : retirees f.still.selector p.bare.work = retirees f.selector p.work := by
    unfold retirees
    rw [show p.bare.work = p.work.bare from rfl, p.work.stale_bare, p.work.length_matched_bare]
    rfl
  unfold proceed
  rw [hretirees]
  cases hphase : p.phase with
  | scale =>
    rw [show p.bare.phase = .scale from hphase]
    dsimp only
    split
    · exact bare_finish ..
    · rfl
  | retire =>
    rw [show p.bare.phase = .retire from hphase]
    exact bare_finish ..
  | drain =>
    rw [show p.bare.phase = .drain from hphase]
    exact bare_finish ..

theorem bare_launch (f : Fleet) (p : Pass) : (p.launch f).bare = p.bare.launch f.still := by
  unfold launch
  rw [show p.bare.plan = p.plan from rfl]
  split
  · exact bare_proceed f p
  · rfl

/-- **A bare pass goes on as the pass does.** -/
theorem bare_conclude (f : Fleet) (outcomes : List Outcome) (p : Pass) :
    (p.conclude f outcomes).bare = p.bare.conclude f.still (outcomes.map Outcome.bare) := by
  rw [conclude, bare_proceed, bare_foldAll]
  rfl

/-! ### How a pass begins -/

/-- The start of a pass that is bare. -/
def Opening.bare : Opening → Opening
  | .planned pass selector => .planned pass.bare selector
  | .failed work e => .failed work e

/-- What is planned depends on the record and on the demand. -/
theorem bare_planScale {r r' : Report} (h : r.bare = r'.bare) (d : Deployment) (eligible : Nat)
    (selection : Placement.Selection) :
    (planScale d r eligible selection).bare = (planScale d r' eligible selection).bare := by
  cases selection with
  | create targets =>
    have hreport := congrArg (fun report : Report => { report with shortfall := targets.shortfall }) h
    exact congrArg (fun report => { (planCreate d r eligible targets).bare with report }) hreport
  | nothing => exact congrArg (Pass.mk d.bare · .scale []) h
  | remove victims =>
    exact congrArg (Pass.mk d.bare · .scale (victims.map (Dispatch.remove · false))) h

/-- **A pass begins alike whatever the clock shows.** -/
theorem bare_start (f : Fleet) (d : Deployment) : (start f d).bare = (start f.still d).bare := by
  have hopened : opened f.still d = opened f d := rfl
  have hreport : (openingReport f d).bare = (openingReport f.still d).bare := rfl
  rw [start_eq, start_eq, hopened]
  split
  · exact congrArg (fun pass => Opening.planned pass _) (bare_planScale hreport ..)
  · cases helect : Placement.elect (opened f d).request f.tree f.registry.list with
    | error e =>
      rw [show f.still.tree = f.tree from rfl, show f.still.registry = f.registry from rfl, helect]
    | ok election =>
      rw [show f.still.tree = f.tree from rfl, show f.still.registry = f.registry from rfl, helect]
      have heligible : { openingReport f d with eligible := some election.nodes.length }.bare =
          { openingReport f.still d with eligible := some election.nodes.length }.bare := rfl
      exact congrArg (fun pass => Opening.planned pass _) (bare_planScale heligible ..)

/-- A pass that begins on one fleet begins alike on another that is the same but for the clock. -/
theorem start_congr {f f' : Fleet} {d : Deployment} {p : Pass} {selector : Placement.Selector}
    (hf : f.still = f'.still) (h : start f d = .planned p selector) :
    ∃ p', start f' d = .planned p' selector ∧ p.bare = p'.bare := by
  have hstart := (bare_start f d).trans (hf ▸ (bare_start f' d).symm)
  rw [h] at hstart
  cases h' : start f' d with
  | planned p' selector' =>
    rw [h'] at hstart
    obtain ⟨hbare, rfl⟩ := Opening.planned.inj hstart
    exact ⟨p', rfl, hbare⟩
  | failed work e =>
    rw [h'] at hstart
    cases hstart

/-- A policy that draws nothing leaves the selector as it is. -/
theorem start_steady {f : Fleet} {d : Deployment} {p : Pass} {selector : Placement.Selector}
    (hsteady : f.selector.policy.IsSteady) (h : start f d = .planned p selector) :
    selector = f.selector := by
  rw [start_eq] at h
  split at h
  · exact (Opening.planned.inj h).2.symm.trans (f.selector.select_steady hsteady ..)
  · split at h
    · cases h
    · exact (Opening.planned.inj h).2.symm.trans (f.selector.select_steady hsteady ..)

/-! ### Working copies -/

theorem foldAll_copyOf (now : Nat) (outcomes : List Outcome) (p : Pass) :
    (p.foldAll now outcomes).work.CopyOf p.work := by
  induction outcomes generalizing p with
  | nil => exact .refl _
  | cons o outcomes ih => exact (ih _).trans (take_copyOf now o p)

theorem proceed_copyOf (f : Fleet) (p : Pass) : (p.proceed f).work.CopyOf p.work := by
  cases hnext : p.proceed f with
  | dispatching p' =>
    rw [(proceed_dispatching hnext).2]
    exact .refl _
  | finished work report => exact (finished_eq hnext).1

theorem launch_copyOf (f : Fleet) (p : Pass) : (p.launch f).work.CopyOf p.work := by
  unfold launch
  split
  · exact proceed_copyOf f p
  · exact .refl _

theorem conclude_copyOf (f : Fleet) (outcomes : List Outcome) (p : Pass) :
    (p.conclude f outcomes).work.CopyOf p.work :=
  (proceed_copyOf ..).trans (foldAll_copyOf ..)

end Pass

/-! ### From plan to plan -/

namespace Progress

/-- What comes next in a pass, when each dispatch of its plan comes to what `v` says. -/
def next (f : Fleet) (v : Dispatch → Except DispatchError String) : Progress → Option Progress
  | .dispatching p => some (p.conclude f (p.plan.map fun x => ⟨x, v x⟩))
  | .finished .. => none

/-- A pass goes from one point to the other, when each dispatch comes to what `v` says. -/
def Leads (f : Fleet) (v : Dispatch → Except DispatchError String) : Progress → Progress → Prop :=
  Relation.ReflTransGen fun a b => a.next f v = some b

variable {f : Fleet} {v : Dispatch → Except DispatchError String} {a : Progress} {p : Pass}
  {work work' : Deployment} {report report' : Report}

theorem Leads.conclude (h : Leads f v a (.dispatching p)) :
    Leads f v a (p.conclude f (p.plan.map fun x => ⟨x, v x⟩)) :=
  Relation.ReflTransGen.tail h rfl

theorem leads_finished {b : Progress} (h : Leads f v (.finished work report) b) :
    b = .finished work report := by
  rcases Relation.ReflTransGen.cases_head h with heq | ⟨c, hnext, -⟩
  · exact heq.symm
  · cases hnext

/-- **A pass comes to one end**, when it is known what comes of each dispatch. -/
theorem Leads.unique (h : Leads f v a (.finished work report))
    (h' : Leads f v a (.finished work' report')) : work = work' ∧ report = report' := by
  have hunique : Relator.RightUnique fun a b : Progress => a.next f v = some b :=
    fun _ _ _ hb hc => Option.some.inj (hb.symm.trans hc)
  have hend : Progress.finished work report = .finished work' report' := by
    rcases Relation.ReflTransGen.total_of_right_unique hunique h h' with hleads | hleads
    · exact (leads_finished hleads).symm
    · exact leads_finished hleads
  cases hend
  exact ⟨rfl, rfl⟩

end Progress

end FleetControl
