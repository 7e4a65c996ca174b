import FleetControl.Proofs.Pass.Truth

/-!
# Converged records stay as they are

A record is *at rest* if its instances are what is wanted and it says so (`Deployment.AtRest`). What
a pass leaves that ends converged is at rest (`Pass.Ending.atRest`).

A pass on a record at rest, with its hosts still in the registry, finds no demand. So it holds no
election and draws nothing (`Deployment.AtRest.start`), it has nothing to dispatch
(`Deployment.AtRest.proceed`), and the record that it leaves differs by the marks of the pass alone
(`Pass.Runs.eq_marked`) and is at rest again. By induction any number of passes leaves the record as
the first converged one did (`Pass.converged_stays`). Regions, health and labels of nodes, the
container engine, the policies and the cap may be others in each pass.
-/

namespace FleetControl

namespace Deployment

/-- The instances are what is wanted, and the record says so. -/
structure AtRest (d : Deployment) : Prop where
  state : d.state = .converged
  matched : d.matched.length = d.scale
  stale : d.stale = []
  warnings : d.warnings = []
  streak : d.consecutiveDegradedPasses = 0

/-- The record with the marks that the end of a pass puts on every record. -/
def marked (d : Deployment) (now : Nat) (report : Report) : Deployment :=
  { d with lastReconciledAt := some now, lastReport := some report }

theorem marked_marked (d : Deployment) (now now' : Nat) (report report' : Report) :
    (d.marked now report).marked now' report' = d.marked now' report' := rfl

theorem AtRest.marked {d : Deployment} (h : d.AtRest) (now : Nat) (report : Report) :
    (d.marked now report).AtRest :=
  ⟨h.state, h.matched, h.stale, h.warnings, h.streak⟩

/-- That the pass converged is no news of a record at rest. -/
theorem AtRest.marked_eq {d : Deployment} (h : d.AtRest) (now : Nat) (report : Report) :
    { d with
      state := .converged
      consecutiveDegradedPasses := 0
      lastReconciledAt := some now
      lastReport := some report } = d.marked now report := by
  rw [← h.state, ← h.streak]
  rfl

end Deployment

namespace Pass

/-- A pass on the record `d` begins on the fleet `f`, meets with the outcomes, leaves the record
`work` and comes to the result, whatever becomes of the fleet meanwhile. -/
inductive Runs (f : Fleet) (d : Deployment) :
    List Outcome → Deployment → Except Region.Error Report → Prop
  | failed {work : Deployment} {e : Region.Error} :
      start f d = .failed work e → Runs f d [] work (.error e)
  | finished {f' : Fleet} {p₀ p : Pass} {selector : Placement.Selector} {outs : List Outcome}
      {work : Deployment} {report : Report} :
      start f d = .planned p₀ selector → Course p₀ p outs → p.plan = [] →
      p.proceed f' = .finished work report → Runs f d outs work (.ok report)

/-! ### Coming to rest -/

theorem finish_report_state {now target : Nat} {p : Pass} {work : Deployment} {report : Report}
    (h : p.finish now target = .finished work report) : work.state = report.state := by
  simp only [finish, Progress.finished.injEq] at h
  obtain ⟨rfl, rfl⟩ := h
  rfl

/-- **What a pass leaves that ends converged is at rest.** -/
theorem Ending.atRest {d₀ d : Deployment} {report : Report} (h : Ending d₀ d (.ok report))
    (hconverged : report.state = .converged) : d.AtRest := by
  have hstate : d.state = .converged := by
    cases h with
    | finished _ _ _ hend =>
      obtain ⟨target, hfinish⟩ := proceed_finished hend
      exact (finish_report_state hfinish).trans hconverged
  have hstreak := congrArg Prod.snd h.tally
  rw [if_pos hconverged] at hstreak
  obtain ⟨hmatched, hstale, hwarnings⟩ := h.truthful.converged hstate
  exact ⟨hstate, hmatched, hstale, hwarnings, hstreak⟩

/-! ### A pass on a record at rest -/

/-- The report of a pass that finds nothing to do. -/
def restReport (f : Fleet) (d : Deployment) (now : Nat) : Report :=
  { Report.start d f.wall with
    instances := d.instances.length, state := .converged, finishedAt := now }

theorem isNoop_restReport (f : Fleet) (d : Deployment) (now : Nat) :
    (restReport f d now).isNoop = true := rfl

end Pass

namespace Deployment.AtRest

open Pass

variable {d : Deployment} {f : Fleet}

theorem demand_eq (h : d.AtRest) : demand d = 0 := by
  rw [demand, h.matched, Int.sub_self]

/-- Nothing is lost and nothing is to be done. -/
theorem opened (h : d.AtRest) (hf : ∀ i ∈ d.instances, f.registry.Knows i.nodeId) :
    Pass.opened f d = d := by
  have hclean : ({ d with warnings := [] } : Deployment) = d := by rw [← h.warnings]
  have hidle : (demand d != 0 || !d.stale.isEmpty) = false := by simp [h.demand_eq, h.stale]
  simp only [Pass.opened, hclean, dropLost_eq hf, hidle, Bool.false_eq_true, if_false]

/-- **A pass on a record at rest holds no election and plans nothing.** -/
theorem start (h : d.AtRest) (hf : ∀ i ∈ d.instances, f.registry.Knows i.nodeId) :
    Pass.start f d = .planned ⟨d, Report.start d f.wall, .scale, []⟩ f.selector := by
  have hreport : openingReport f d = Report.start d f.wall := by
    rw [openingReport, dropLost_eq hf, Nat.sub_self]
    rfl
  rw [start_eq, h.opened hf, hreport, h.demand_eq, if_pos (Int.le_refl 0)]
  rfl

/-- **It dispatches nothing and ends at once.** -/
theorem proceed (h : d.AtRest) (g : Fleet) :
    Pass.proceed g ⟨d, Report.start d f.wall, .scale, []⟩ =
      .finished (d.marked g.wall (restReport f d g.wall)) (restReport f d g.wall) := by
  have hconverged : (d.matched.length == d.scale && d.stale.isEmpty) = true := by
    simp [h.matched, h.stale]
  simp only [Pass.proceed, retirees_eq_nil _ h.stale, List.map_nil, Pass.finish, hconverged, if_true]
  rw [← h.marked_eq]
  rfl

end Deployment.AtRest

namespace Pass

variable {f : Fleet} {d d' work : Deployment} {outs : List Outcome}
  {result : Except Region.Error Report}

/-- A plan with nothing in it meets with no outcomes. -/
theorem Course.eq_of_plan_nil {p₀ p : Pass} (h : Course p₀ p outs) (hplan : p₀.plan = [])
    (hend : ∀ g p', p₀.proceed g ≠ .dispatching p') : p = p₀ ∧ outs = [] := by
  induction h with
  | opened => exact ⟨rfl, rfl⟩
  | folded _ _ hnext ih =>
    rw [ih.1, hplan] at hnext
    cases hnext
  | proceeded g _ _ hnext ih =>
    rw [ih.1] at hnext
    exact absurd hnext (hend g _)

/-- A pass on a record at rest makes no call and leaves its marks. -/
theorem Runs.eq_marked (h : Runs f d outs work result) (hd : d.AtRest)
    (hf : ∀ i ∈ d.instances, f.registry.Knows i.nodeId) :
    outs = [] ∧ ∃ now, result = .ok (restReport f d now) ∧
      work = d.marked now (restReport f d now) := by
  cases h with
  | failed hstart =>
    rw [hd.start hf] at hstart
    cases hstart
  | @finished f' _ p _ _ _ _ hstart hcourse _ hend =>
    rw [hd.start hf] at hstart
    cases hstart
    obtain ⟨rfl, rfl⟩ := hcourse.eq_of_plan_nil rfl fun g p' hnext => by
      rw [hd.proceed g] at hnext
      cases hnext
    rw [hd.proceed f'] at hend
    cases hend
    exact ⟨rfl, f'.wall, rfl, rfl⟩

/-! ### Any number of passes -/

/-- Passes follow one another on a record, each on a fleet that knows the hosts of its instances. -/
inductive Repeats (d : Deployment) : Deployment → Prop
  | begun : Repeats d d
  | again {f : Fleet} {d' d'' : Deployment} {outs : List Outcome}
      {result : Except Region.Error Report} :
      Repeats d d' → (∀ i ∈ d'.instances, f.registry.Knows i.nodeId) →
      Runs f d' outs d'' result → Repeats d d''

/-- Passes on a record at rest change nothing but the marks of the last pass. -/
theorem Repeats.eq_marked (h : Repeats d d') (hd : d.AtRest) :
    d' = d ∨ ∃ now report, d' = d.marked now report := by
  induction h with
  | begun => exact .inl rfl
  | again _ hf hruns ih =>
    right
    rcases ih with rfl | ⟨now, report, rfl⟩
    · obtain ⟨-, now', -, rfl⟩ := hruns.eq_marked hd hf
      exact ⟨now', _, rfl⟩
    · obtain ⟨-, now', -, rfl⟩ := hruns.eq_marked (hd.marked now report) hf
      exact ⟨now', _, rfl⟩

/-- **Convergence is a fixed point.** Let the last pass on the record `d` have ended converged. After
any number of further passes, on fleets that know the hosts of the instances and have nothing else
in common, the next such pass can be made, whatever the regions are; it plans no call and ends at
once. However it is made, it meets with no outcome of a call, reports that it did nothing, without an
election, and ends converged, and in no field but its marks does the record that it leaves differ
from `d`. -/
theorem converged_stays {d₀ : Deployment} {report₀ : Report}
    (hlast : Ending d₀ d (.ok report₀)) (hconverged : report₀.state = .converged)
    (h : Repeats d d') (hf : ∀ i ∈ d.instances, f.registry.Knows i.nodeId) :
    (∃ pass, pass.plan = [] ∧
      (∀ tree, start { f with tree } d' = .planned pass f.selector) ∧
      ∀ g, ∃ work report, pass.launch g = .finished work report ∧ Runs f d' [] work (.ok report)) ∧
    ∀ outs work result, Runs f d' outs work result →
      outs = [] ∧ ∃ now report, result = .ok report ∧
        report.eligible = none ∧ report.isNoop = true ∧ report.state = .converged ∧
        work.state = .converged ∧
        work = { d with lastReconciledAt := some now, lastReport := some report } := by
  have hd := hlast.atRest hconverged
  -- the record may bear the marks of other passes by now
  obtain ⟨hrest, hinst, hmarked⟩ : d'.AtRest ∧ d'.instances = d.instances ∧
      ∀ now report, d'.marked now report = d.marked now report := by
    rcases h.eq_marked hd with rfl | ⟨now, report, rfl⟩
    · exact ⟨hd, rfl, fun _ _ => rfl⟩
    · exact ⟨hd.marked now report, rfl, fun now' => d.marked_marked now now' report⟩
  rw [← hinst] at hf
  refine ⟨⟨⟨d', Report.start d' f.wall, .scale, []⟩, rfl, fun tree => ?_, fun g => ?_⟩, ?_⟩
  · exact hrest.start (f := { f with tree }) hf
  · exact ⟨_, _, hrest.proceed g, .finished (hrest.start hf) .opened rfl (hrest.proceed g)⟩
  · intro outs work result hruns
    obtain ⟨hnone, now, hresult, hwork⟩ := hruns.eq_marked hrest hf
    rw [hmarked] at hwork
    exact ⟨hnone, now, _, hresult, rfl, isNoop_restReport f d' now, rfl, hwork ▸ hd.state, hwork⟩

/-- A record of the one instance that is wanted, as its creation left it. -/
def replaced : Deployment :=
  { replacing with instances := [⟨"web-2", "n", "h2", "new", 1, 2⟩] }

/-- A fleet of one node that is ill, later than `lone`. -/
def ailing : Fleet :=
  { lone with registry := lone.registry.setHealthy "n" false, wall := 9 }

theorem knows_hosts_ailing : ∀ i ∈ replaced.instances, ailing.registry.Knows i.nodeId := by
  simp only [replaced, List.mem_singleton, forall_eq]
  show (ailing.registry.lookup "n").isSome
  decide +kernel

/-- When the only node falls ill after a pass that ended converged, the next pass does nothing. -/
theorem converged_stays_ailing :
    ∃ d report₀, Ending replaced d (.ok report₀) ∧ report₀.state = .converged ∧
      (∃ pass, pass.plan = [] ∧
        ∀ tree, start { ailing with tree } d = .planned pass ailing.selector) ∧
      ∀ outs work result, Runs ailing d outs work result →
        outs = [] ∧ work.state = .converged ∧ work.instances = replaced.instances := by
  have hlast : Ending replaced _ (.ok _) :=
    .finished (f := lone) rfl .opened rfl (show proceed lone _ = .finished _ _ from rfl)
  obtain ⟨⟨pass, hnone, hstarts, -⟩, hall⟩ :=
    converged_stays hlast rfl .begun knows_hosts_ailing
  refine ⟨_, _, hlast, rfl, ⟨pass, hnone, hstarts⟩, fun outs work result hruns => ?_⟩
  obtain ⟨hcalls, now, report, -, -, -, -, hstate, hwork⟩ := hall outs work result hruns
  exact ⟨hcalls, hstate, hwork ▸ rfl⟩

end Pass

end FleetControl
