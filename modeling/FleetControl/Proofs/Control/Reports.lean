import FleetControl.Proofs.Control.Cap
import FleetControl.Proofs.Control.Deletion
import FleetControl.Proofs.Control.Dispatching
import FleetControl.Proofs.Dispatch.Made

/-!
# What passes report of their runs

Of a process that carries out a pass, or the end of a deployment, a run shows which plans it gets
under way (`Control.plansOf`), with which outcomes it goes on (`Control.outcomesOf`), and by how many
calls the engine counts more after its steps (`Control.callsBy`). As long as it works, the plans are
those of its outcomes and of the plan under way, and the calls are those that were not skipped and
those of its batch that have begun (`Control.Booked`). In the end its report balances with them
(`Control.reports_balance`).
-/

namespace FleetControl

namespace Pass

variable {d : Deployment} {p p' : Pass} {lost : List Instance} {missing : Nat}

/-- A record that is marked as converging begins as it is. -/
theorem Begins.of_begun (h : Begins d.begun p lost) : Begins d p lost := by
  obtain ⟨state, heq⟩ := d.begun_eq
  rw [heq] at h
  exact ⟨h.sound, h.blank, h.errorLog, h.capacity, h.nodup, h.lost_nodup, h.lost_subset,
    h.lost_length, h.instances, h.plan_le⟩

end Pass

/-- What a pass leaves that is over, and its report. -/
def Progress.ending? : Progress → Option (Deployment × Report)
  | .dispatching _ => none
  | .finished work report => some (work, report)

theorem Progress.ending?_eq_some {progress : Progress} {work : Deployment} {report : Report} :
    progress.ending? = some (work, report) ↔ progress = .finished work report := by
  cases progress <;> simp [ending?]

namespace Control

/-! ### What a run shows of a process -/

namespace State

variable (s : State) (p : ProcId)

/-- What comes next for a process that holds a lock, if it takes a turn. -/
def turn? : Option Progress := do
  let ⟨errand, stage⟩ ← s.procs[p]?
  let i ← stage.held?
  let sl ← s.slots[i]?
  match errand, stage with
  | .delete _, .admitted _ => (Pass.startDrain s.wall sl.record).launch s.fleet
  | _, _ => s.next? errand sl stage

/-- The plan that the process comes to in a step. -/
def planned? : Label → Option (List Dispatch)
  | .advance q => if q = p then (s.turn? p).bind Progress.plan? else none
  | _ => none

/-- The outcomes that the process goes on with in a step. -/
def taken? : Label → Option (List Outcome)
  | .advance q =>
    if q = p then ((s.batch? p).filter Batch.isDone).map Batch.outcomes else none
  | _ => none

/-- The number of calls that the engine counts more after a step of the process. -/
def counted? (l : Label) : Option Nat :=
  if l.actor? = some p then (step s l).map fun s' => s'.engine.calls - s.engine.calls else none

end State

/-- The dispatches that the process has planned. -/
def plansOf (p : ProcId) (s₀ : State) (labels : List Label) : List Dispatch :=
  (gather (·.planned? p) s₀ labels).flatten

/-- The outcomes that the process has gone on with. -/
def outcomesOf (p : ProcId) (s₀ : State) (labels : List Label) : List Outcome :=
  (gather (·.taken? p) s₀ labels).flatten

/-- The number of calls to the engine that the process has made. -/
def callsBy (p : ProcId) (s₀ : State) (labels : List Label) : Nat :=
  (gather (·.counted? p) s₀ labels).sum

section

variable {s₀ s s' s₁ : State} {labels : List Label} {l : Label} {p : ProcId} {errand : Errand}
  {i : SlotId} {d work : Deployment} {pass p₀ : Pass} {batch batch' : Batch}
  {lost : List Instance} {report : Report} {progress : Progress} {missing : Nat}

theorem plansOf_concat (h : run s₀ labels = some s) (l : Label) :
    plansOf p s₀ (labels ++ [l]) = plansOf p s₀ labels ++ (s.planned? p l).toList.flatten := by
  rw [plansOf, gather_concat _ h, List.flatten_append, plansOf]

theorem outcomesOf_concat (h : run s₀ labels = some s) (l : Label) :
    outcomesOf p s₀ (labels ++ [l]) = outcomesOf p s₀ labels ++ (s.taken? p l).toList.flatten := by
  rw [outcomesOf, gather_concat _ h, List.flatten_append, outcomesOf]

theorem callsBy_concat (h : run s₀ labels = some s) (l : Label) :
    callsBy p s₀ (labels ++ [l]) = callsBy p s₀ labels + (s.counted? p l).toList.sum := by
  rw [callsBy, gather_concat _ h, List.sum_append, callsBy]

/-- A process that takes a turn comes to what comes next. -/
theorem turn?_of_turn (hturn : Turn s p errand i s₁ progress) : s.turn? p = some progress := by
  cases hturn with
  | @opened _ _ sl pass selector hproc hpass hslot hstart =>
    have hheld : (Stage.admitted i).held? = some i := rfl
    have hnext : s.next? errand sl (.admitted i) =
        some (pass.launch { s.fleet with selector }) := by
      rw [State.next?, hstart]
      rfl
    cases errand with
    | delete id => exact absurd rfl (hpass id)
    | _ => simp only [State.turn?, hproc, hheld, hslot, Option.bind_eq_bind, Option.bind_some, hnext]
  | @drained _ _ sl hproc hslot =>
    have hheld : (Stage.admitted i).held? = some i := rfl
    simp only [State.turn?, hproc, hheld, hslot, Option.bind_eq_bind, Option.bind_some]
  | @concluded _ _ sl pass batch hproc hslot hhand hdone =>
    have hheld : (Stage.working i pass batch).held? = some i := rfl
    have hover : (batch.handOut (State.isCancelled errand sl)).isNone ∧ batch.isDone := by
      rw [hhand]
      exact ⟨rfl, hdone⟩
    simp only [State.turn?, hproc, hheld, hslot, Option.bind_eq_bind, Option.bind_some, State.next?,
      if_pos hover]

theorem planned?_of_turn (hturn : Turn s p errand i s₁ progress) :
    s.planned? p (.advance p) = progress.plan? := by
  rw [State.planned?, if_pos rfl, turn?_of_turn hturn, Option.bind_some]

theorem taken?_of_isDone (hp : s.IsWorking p errand i pass batch) (hdone : batch.isDone) :
    s.taken? p (.advance p) = some batch.outcomes := by
  rw [State.taken?, if_pos rfl, batch?_eq_some.2 ⟨errand, i, pass, hp⟩, Option.filter,
    if_pos hdone, Option.map_some]

theorem counted?_of_step (hactor : l.actor? = some p) (hstep : step s l = some s') :
    s.counted? p l = some (s'.engine.calls - s.engine.calls) := by
  rw [State.counted?, if_pos hactor, hstep, Option.map_some]

/-- A process shows nothing in the steps of others. -/
theorem quiet_of_other (h : l.actor? ≠ some p) :
    s.planned? p l = none ∧ s.taken? p l = none ∧ s.counted? p l = none := by
  refine ⟨?_, ?_, if_neg h⟩
  · cases l with
    | advance q => exact if_neg fun hq => h (congrArg some hq)
    | _ => rfl
  · cases l with
    | advance q => exact if_neg fun hq => h (congrArg some hq)
    | _ => rfl

/-! ### The books of a run -/

/-- What a process that works on a pass has planned, gone on with and called, since it began in the
state `s₀` with the record `d`. -/
structure Booked (s₀ : State) (p : ProcId) (errand : Errand) (i : SlotId) (d : Deployment)
    (missing : Nat) (labels : List Label) (s : State) (pass : Pass) (batch : Batch) : Prop where
  working : s.IsWorking p errand i pass batch
  begun : ∃ p₀ lost, Pass.Begins d p₀ lost ∧
    (errand.IsPass → p₀.Warns missing ∧ p₀.phase ≠ .drain) ∧
    Pass.Course p₀ pass (outcomesOf p s₀ labels)
  plans : plansOf p s₀ labels = (outcomesOf p s₀ labels).map (·.dispatch) ++ pass.plan
  calls : callsBy p s₀ labels = (outcomesOf p s₀ labels).countP (!·.isSkipped) + batch.started

/-- What a process begins with, and what it warns of then. -/
theorem begins_of_turn (hproc : s₀.procs[p]? = some ⟨errand, .admitted i⟩)
    (hd : s₀.recordAt i = some d) (hids : d.DistinctIds)
    (hturn : Turn s₀ p errand i s₁ progress) :
    ∃ p₀ lost f, Pass.Begins d p₀ lost ∧ progress = p₀.launch f ∧
      (errand.IsPass → p₀.Warns (d.scale - (Pass.dropLost s₀.registry d).matched.length) ∧
        p₀.phase ≠ .drain) := by
  cases hturn with
  | @opened _ _ sl pass selector _ hpass hslot hstart =>
    cases (State.recordAt_of_slot hslot).symm.trans hd
    obtain ⟨state, heq⟩ := sl.record.begun_eq
    have hbegun : sl.record.begun.DistinctIds := by
      rw [heq]
      exact hids.of_sublist rfl (List.Sublist.refl _) rfl
    have hwarns := (Pass.opening_of_start hstart).2.2.2
    rw [heq] at hwarns
    refine ⟨pass, _, _, (Pass.begins_of_start hbegun hstart).of_begun, rfl, fun _ =>
      ⟨hwarns, ?_⟩⟩
    rw [(Pass.start_planned hstart).2.2.1]
    rintro ⟨⟩
  | @drained id _ sl _ hslot =>
    cases (State.recordAt_of_slot hslot).symm.trans hd
    exact ⟨_, [], _, Pass.begins_startDrain s₀.wall hids, rfl, fun hpass => absurd rfl (hpass id)⟩
  | concluded hworking _ _ _ => cases hproc.symm.trans hworking

/-- A step that plans nothing, and goes on with nothing, keeps the books with the calls. -/
theorem Booked.moved (h : Booked s₀ p errand i d missing labels s pass batch)
    (hrun : run s₀ labels = some s) (hplanned : s.planned? p l = none)
    (htaken : s.taken? p l = none)
    (hcounted : batch'.started = batch.started + (s.counted? p l).toList.sum)
    (hworking : s'.IsWorking p errand i pass batch') :
    Booked s₀ p errand i d missing (labels ++ [l]) s' pass batch' := by
  have houts : outcomesOf p s₀ (labels ++ [l]) = outcomesOf p s₀ labels := by
    rw [outcomesOf_concat hrun, htaken]
    exact List.append_nil _
  refine ⟨hworking, houts ▸ h.begun, ?_, ?_⟩
  · rw [plansOf_concat hrun, hplanned, houts]
    exact (List.append_nil _).trans h.plans
  · rw [callsBy_concat hrun, houts, h.calls, hcounted, Nat.add_assoc]

/-- The books when all calls of a batch are over and the process goes on. -/
theorem Booked.taken (h : Booked s₀ p errand i d missing labels s pass batch) (hI : Intact s)
    (hrun : run s₀ labels = some s) (hdone : batch.isDone)
    (hcounted : (s.counted? p (.advance p)).toList.sum = 0) :
    let outs := outcomesOf p s₀ (labels ++ [.advance p])
    outs = outcomesOf p s₀ labels ++ batch.outcomes ∧
      plansOf p s₀ (labels ++ [.advance p]) =
        outs.map (·.dispatch) ++ (s.planned? p (.advance p)).toList.flatten ∧
      callsBy p s₀ (labels ++ [.advance p]) = outs.countP (!·.isSkipped) := by
  have houts : outcomesOf p s₀ (labels ++ [.advance p]) =
      outcomesOf p s₀ labels ++ batch.outcomes := by
    rw [outcomesOf_concat hrun, taken?_of_isDone h.working hdone, Option.toList_some,
      List.flatten_singleton]
  refine ⟨houts, ?_, ?_⟩
  · rw [plansOf_concat hrun, houts, List.map_append, Batch.outcomes_dispatches hdone,
      hI.plans h.working, h.plans]
  · rw [callsBy_concat hrun, houts, List.countP_append, Batch.countP_outcomes hdone, hcounted,
      h.calls, Nat.add_zero]

theorem engine_endProc (s : State) (p : ProcId) (i : SlotId) (answer : Answer) :
    (s.endProc p i answer).engine = s.engine := by
  obtain ⟨slots, procs, heq⟩ := s.endProc_eq p i answer
  rw [heq]

/-- A process that takes a turn makes no call. -/
theorem counted?_of_turn (hturn : Turn s p errand i s₁ progress) :
    (s.counted? p (.advance p)).toList.sum = 0 := by
  have hengine : (s₁.follow p errand i progress).engine = s.engine := by
    have hsame : s₁.engine = s.engine := by cases hturn <;> rfl
    rw [← hsame]
    have hfollow : Follow s₁ p errand i progress _ := follow_of_eq rfl
    generalize s₁.follow p errand i progress = s' at hfollow
    cases hfollow with
    | dispatched _ _ => rfl
    | aborted _ _ => exact engine_endProc ..
    | published _ _ _ => exact engine_endProc ..
    | deleted _ _ _ _ => exact engine_endProc ..
  rw [counted?_of_step rfl (step_of_turn hturn), hengine, Nat.sub_self]
  rfl

/-- A process that has taken a turn is over, or works on the plan that it came to. -/
theorem ended_or_working {stage : Stage} (hl : Locked s) (hproc : s.procs[p]? = some ⟨errand, stage⟩)
    (hheld : stage.held? = some i) (hfollow : Follow s p errand i progress s') :
    (∃ answer, s'.answer? p = some answer) ∨ ∃ pass, progress = .dispatching pass ∧
      s'.IsWorking p errand i pass (s.batchOf pass.plan) := by
  cases hfollow with
  | dispatched pass _ => exact .inr ⟨pass, rfl, State.procs_setStage_self hproc _⟩
  | aborted _ _ => exact .inl ⟨_, answer?_endProc hl hproc hheld _⟩
  | published _ _ _ => exact .inl ⟨_, answer?_endProc (hl.mapRecord ..) hproc hheld _⟩
  | deleted _ _ _ _ => exact .inl ⟨_, answer?_endProc hl hproc hheld _⟩

/-- The process gets its next plan under way. -/
theorem Booked.dispatched {pass' : Pass} (h : Booked s₀ p errand i d missing labels s pass batch)
    (hI : Intact s) (hrun : run s₀ labels = some s) (hdone : batch.isDone)
    (hturn : Turn s p errand i s₁ (.dispatching pass'))
    (hnext : pass.conclude s.fleet batch.outcomes = .dispatching pass')
    (hworking : s'.IsWorking p errand i pass' (s₁.batchOf pass'.plan)) :
    Booked s₀ p errand i d missing (labels ++ [.advance p]) s' pass' (s₁.batchOf pass'.plan) := by
  obtain ⟨houts, hplans, hcalls⟩ := h.taken hI hrun hdone (counted?_of_turn hturn)
  obtain ⟨p₀, lost, hbegins, hwarns, hcourse⟩ := h.begun
  have hplan : batch.outcomes.map (·.dispatch) = pass.plan :=
    (Batch.outcomes_dispatches hdone).trans (hI.plans h.working)
  refine ⟨hworking, ⟨p₀, lost, hbegins, hwarns, houts ▸ hcourse.conclude_dispatching hplan hnext⟩,
    ?_, ?_⟩
  · rw [hplans, planned?_of_turn hturn, Progress.plan?, Option.toList_some, List.flatten_singleton]
  · rw [hcalls, State.batchOf, Batch.started_ofPlan, Nat.add_zero]

/-- **A step of the process keeps its books**, unless it ends by the step. -/
theorem Booked.own (h : Booked s₀ p errand i d missing labels s pass batch) (hI : Intact s)
    (hrun : run s₀ labels = some s) (hstep : step s l = some s') (hactor : l.actor? = some p) :
    (∃ answer, s'.answer? p = some answer) ∨
      ∃ pass' batch', Booked s₀ p errand i d missing (labels ++ [l]) s' pass' batch' := by
  have hcounted := counted?_of_step hactor hstep
  cases workStep_of_step h.working hstep hactor with
  | @issued sl batch' hslot hhand =>
    have hunfinished : ¬ batch.isDone := fun hdone => by
      cases hhand.symm.trans (Batch.handOut_of_isDone hdone _)
    have hnone : s.turn? p = none := by
      have hproc : s.procs[p]? = some ⟨errand, .working i pass batch⟩ := h.working
      have hheld : (Stage.working i pass batch).held? = some i := rfl
      simp [State.turn?, hproc, hheld, State.next?, hunfinished]
    refine .inr ⟨pass, batch', h.moved hrun ?_ ?_ ?_ (State.procs_setStage_self h.working _)⟩
    · rw [State.planned?, if_pos rfl, hnone, Option.bind_none]
    · rw [State.taken?, if_pos rfl, batch?_eq_some.2 ⟨errand, i, pass, h.working⟩, Option.filter,
        if_neg hunfinished, Option.map_none]
    · rw [hcounted, Batch.started_handOut hhand]
      simp [State.setStage]
  | @started k batch' engine hcall =>
    obtain ⟨hstarted, hcalls⟩ := Batch.calls_start hcall
    refine .inr ⟨pass, batch', h.moved hrun rfl rfl ?_
      (State.procs_setStage_self (s := { s with engine }) h.working _)⟩
    rw [hcounted, hstarted]
    simp [State.setStage, hcalls]
  | @settled k batch' engine hcall =>
    obtain ⟨hstarted, hcalls⟩ := Batch.calls_settle hcall
    refine .inr ⟨pass, batch', h.moved hrun rfl rfl ?_
      (State.procs_setStage_self (s := { s with engine }) h.working _)⟩
    rw [hcounted, hstarted]
    simp [State.setStage, hcalls]
  | @concluded sl s' hslot hdone hfollow =>
    have hturn := Turn.concluded h.working hslot (Batch.handOut_of_isDone hdone _) hdone
    refine (ended_or_working hI.locked h.working rfl hfollow).imp_right ?_
    rintro ⟨pass', hnext, hworking⟩
    rw [hnext] at hturn
    exact ⟨pass', _, h.dispatched hI hrun hdone hturn hnext hworking⟩

/-- The first plan of the process gets under way. -/
theorem booked_of_turn (hproc : s₀.procs[p]? = some ⟨errand, .admitted i⟩)
    (hd : s₀.recordAt i = some d) (hids : d.DistinctIds)
    (hturn : Turn s₀ p errand i s₁ (.dispatching pass))
    (hworking : s'.IsWorking p errand i pass (s₁.batchOf pass.plan)) :
    Booked s₀ p errand i d (d.scale - (Pass.dropLost s₀.registry d).matched.length) [.advance p] s'
      pass (s₁.batchOf pass.plan) := by
  obtain ⟨p₀, lost, f, hbegins, hlaunch, hwarns⟩ := begins_of_turn hproc hd hids hturn
  have hrun : run s₀ [] = some s₀ := rfl
  have houts : outcomesOf p s₀ ([] ++ [Label.advance p]) = [] := by
    have hidle : s₀.batch? p = none := by rw [State.batch?, hproc]
    rw [outcomesOf_concat hrun, State.taken?, if_pos rfl, hidle]
    rfl
  have hplans : plansOf p s₀ ([] ++ [Label.advance p]) = pass.plan := by
    rw [plansOf_concat hrun, planned?_of_turn hturn]
    exact List.append_nil _
  have hcalls : callsBy p s₀ ([] ++ [Label.advance p]) = 0 := by
    rw [callsBy_concat hrun, counted?_of_turn hturn]
    rfl
  rw [List.nil_append] at houts hplans hcalls
  refine ⟨hworking, ⟨p₀, lost, hbegins, hwarns, ?_⟩, ?_, ?_⟩
  · rw [houts]
    exact Pass.Course.launch_dispatching hlaunch.symm
  · rw [hplans, houts]
    rfl
  · rw [hcalls, houts, State.batchOf, Batch.started_ofPlan]
    rfl

/-- **What becomes of a process that begins**: until it ends it keeps its books. -/
theorem booked_run (hI : Intact s₀) (hproc : s₀.procs[p]? = some ⟨errand, .admitted i⟩)
    (hd : s₀.recordAt i = some d) (hids : d.DistinctIds)
    (hfirst : (labels ++ [Label.advance p]).head? = some (.advance p))
    (hrun : run s₀ labels = some s) : labels = [] ∨ (∃ answer, s.answer? p = some answer) ∨
      ∃ pass batch, Booked s₀ p errand i d
        (d.scale - (Pass.dropLost s₀.registry d).matched.length) labels s pass batch := by
  refine run_induction (P := fun labels s => (labels ++ [Label.advance p]).head? = some (.advance p) →
    labels = [] ∨ (∃ answer, s.answer? p = some answer) ∨ ∃ pass batch, Booked s₀ p errand i d
      (d.scale - (Pass.dropLost s₀.registry d).matched.length) labels s pass batch)
    (fun _ => .inl rfl) ?_ hrun hfirst
  intro labels s l s' hrun ih hstep hfirst
  have hIs := hI.run hrun
  refine .inr ?_
  cases labels with
  | nil =>
    cases hrun
    cases hfirst
    cases ownMove_of_step hproc hstep rfl with
    | @unplaced _ sl work e _ _ _ =>
      rw [State.mapRecord_mapRecord]
      exact .inl ⟨_, answer?_endProc (hI.locked.mapRecord ..) hproc rfl _⟩
    | @turned _ _ s₁ _ progress hheld hturn hfollow =>
      cases hheld
      have hl := hI.locked.turn hturn
      refine (ended_or_working hl (hturn.procs ▸ hproc) rfl hfollow).imp_right ?_
      rintro ⟨pass, rfl, hworking⟩
      exact ⟨pass, _, booked_of_turn hproc hd hids hturn hworking⟩
  | cons first rest =>
    rcases ih hfirst with hnil | ⟨answer, hanswer⟩ | ⟨pass, batch, hbooked⟩
    · cases hnil
    · exact .inl ⟨answer, answer_step hIs.locked hstep hanswer⟩
    · by_cases hactor : l.actor? = some p
      · exact hbooked.own hIs hrun hstep hactor
      · obtain ⟨hplanned, htaken, hcounted⟩ := quiet_of_other (s := s) hactor
        rcases proc_step hIs.locked hstep hactor hbooked.working with hsame | ⟨_, ⟨⟩, -⟩
        refine .inr ⟨pass, batch, hbooked.moved hrun hplanned htaken ?_ hsame⟩
        rw [hcounted]
        rfl

/-! ### Reports -/

/-- What is promised of the report of a process that found the record `d` in the state `s₀`, and came
to its end by the given steps. -/
structure Audited (s₀ : State) (p : ProcId) (errand : Errand) (d work : Deployment)
    (report : Report) (labels : List Label) : Prop where
  /-- The report says what was planned, what came of it and how many calls the engine counted. -/
  balances : report.Balances d work (plansOf p s₀ labels) (outcomesOf p s₀ labels)
    (callsBy p s₀ labels)
  /-- What a pass did not plan of the instances that were missing is its shortfall. -/
  warns : errand.IsPass → report.Warns work (plansOf p s₀ labels)
    (d.scale - (Pass.dropLost s₀.registry d).matched.length)

theorem audited_of_course {f : Fleet} (hbegins : Pass.Begins d p₀ lost)
    (hwarns : errand.IsPass →
      p₀.Warns (d.scale - (Pass.dropLost s₀.registry d).matched.length) ∧ p₀.phase ≠ .drain)
    (hcourse : Pass.Course p₀ pass (outcomesOf p s₀ labels)) (hplan : pass.plan = [])
    (hend : pass.proceed f = .finished work report)
    (hplans : plansOf p s₀ labels = (outcomesOf p s₀ labels).map (·.dispatch))
    (hcalls : callsBy p s₀ labels = (outcomesOf p s₀ labels).countP (!·.isSkipped)) :
    Audited s₀ p errand d work report labels := by
  constructor
  · rw [hplans, hcalls]
    exact hbegins.balances hcourse hplan hend
  · intro hpass
    rw [hplans]
    exact (hwarns hpass).1.finished (hwarns hpass).2 hcourse hplan hend

end

/-- **Reports balance**: that of every pass and of every end of a deployment, on any record whose
instances have distinct ids, whatever comes of the calls, whatever other processes and clients do
meanwhile, and whenever the deployment is deleted. -/
theorem reports_balance {s₀ s s₁ : State} {labels : List Label} {p : ProcId} {errand : Errand}
    {i : SlotId} {d work : Deployment} {report : Report} (hI : Intact s₀)
    (hproc : s₀.procs[p]? = some ⟨errand, .admitted i⟩) (hd : s₀.recordAt i = some d)
    (hids : d.DistinctIds) (hfirst : (labels ++ [Label.advance p]).head? = some (.advance p))
    (hrun : run s₀ labels = some s) (hturn : Turn s p errand i s₁ (.finished work report)) :
    Audited s₀ p errand d work report (labels ++ [.advance p]) := by
  have hcounted := counted?_of_turn hturn
  have hplanned : s.planned? p (.advance p) = none := planned?_of_turn hturn
  rcases booked_run hI hproc hd hids hfirst hrun with rfl | ⟨answer, hanswer⟩ |
    ⟨pass, batch, hbooked⟩
  · -- the pass comes to its end as it begins
    cases Option.some.inj hrun
    have hrun : run s₀ [] = some s₀ := rfl
    obtain ⟨p₀, lost, f, hbegins, hlaunch, hwarns⟩ := begins_of_turn hproc hd hids hturn
    obtain ⟨hplan, hend⟩ := Pass.Course.launch_finished hlaunch.symm
    have hidle : s₀.batch? p = none := by rw [State.batch?, hproc]
    have houts : outcomesOf p s₀ ([] ++ [Label.advance p]) = [] := by
      rw [outcomesOf_concat hrun, State.taken?, if_pos rfl, hidle]
      rfl
    refine audited_of_course hbegins hwarns (houts ▸ .opened) hplan hend ?_ ?_
    · rw [plansOf_concat hrun, hplanned, houts]
      rfl
    · rw [callsBy_concat hrun, hcounted, houts]
      rfl
  · -- a process that is over takes no turn
    obtain ⟨errand', hover⟩ := State.answer?_eq_some.1 hanswer
    obtain ⟨stage, hproc', hheld⟩ := hturn.proc
    cases hproc'.symm.trans hover
    cases hheld
  · obtain ⟨p₀, lost, hbegins, hwarns, hcourse⟩ := hbooked.begun
    have hIs := hI.run hrun
    generalize hprogress : Progress.finished work report = progress at hturn
    cases hturn with
    | opened hadmitted _ _ _ => cases hadmitted.symm.trans hbooked.working
    | drained hadmitted _ => cases hadmitted.symm.trans hbooked.working
    | concluded hworking _ _ hdone =>
      cases hworking.symm.trans hbooked.working
      obtain ⟨houts, hplans, hcalls⟩ := hbooked.taken hIs hrun hdone hcounted
      have hplan := (Batch.outcomes_dispatches hdone).trans (hIs.plans hbooked.working)
      obtain ⟨q, hq, hover, hend⟩ := hcourse.conclude_finished hplan hprogress.symm
      rw [hplanned, Option.toList_none, List.flatten_nil, List.append_nil] at hplans
      exact audited_of_course hbegins hwarns (houts ▸ hq) hover hend hplans hcalls

/-- A control plane over six nodes, all of them ill. Its records keep one failure. -/
def sixNodes : State where
  tree := ⟨[{ name := "" }]⟩
  registry := .ofNodes (["a", "b", "c", "d", "e", "f"].map fun id => { id, healthy := false })
  selector := {}
  settings := { errorLogCapacity := 1 }

/-- A node is well during one pass of the deployment. -/
def passOn (id : String) (p : ProcId) : List Label :=
  [.change (.setHealthy id true), .trigger "s"] ++ List.replicate 4 (.advance p) ++
    [.startCall p 0, .advance p, .change (.setHealthy id false)]

/-- A deployment has five instances, and a failure in its log. One of the nodes leaves, and another
fails from now on. The deployment is to run another container, and the pass has the lock. -/
def replacementDue : List Label :=
  [.submit { deploymentId := some "s", container := { image := "web" }, scale := 6 } "x",
    .advance 0, .advance 0, .advance 0, .change (.fail "f")] ++
  passOn "a" 1 ++ passOn "b" 2 ++ passOn "c" 3 ++ passOn "d" 4 ++ passOn "e" 5 ++ passOn "f" 6 ++
  [.change (.deregister "e"), .change (.fail "b"), .change (.setHealthy "a" true),
    .submit { deploymentId := some "s", container := { image := "db" }, scale := 2 } "x",
    .advance 7, .advance 7]

/-- One of two new instances is created. Of three old ones that it replaces one is removed and one is
not, as its node fails, and the deployment is deleted before the third. -/
def deletedBetween : List Label :=
  [.advance 7, .advance 7, .startCall 7 0, .advance 7, .advance 7, .startCall 7 0, .advance 7,
    .startCall 7 1, .delete "s", .advance 8, .advance 7]

theorem reports_balance_deletedBetween : ∃ s₀ d s s₁ work report,
    run sixNodes replacementDue = some s₀ ∧ Intact s₀ ∧
    s₀.procs[7]? = some ⟨.submit "s", .admitted 0⟩ ∧ s₀.recordAt 0 = some d ∧ d.DistinctIds ∧
    (deletedBetween ++ [Label.advance 7]).head? = some (.advance 7) ∧
    run s₀ deletedBetween = some s ∧ Turn s 7 (.submit "s") 0 s₁ (.finished work report) ∧
    (report.lost = 1 ∧ report.created = 1 ∧ report.staleRemoved = 1 ∧ report.failed = 1 ∧
      report.skipped = 1 ∧ report.shortfall = 1 ∧ report.instances = 4) ∧
    d.errorLog.map (·.nodeId) = ["f"] ∧ work.errorLog.map (·.nodeId) = ["b"] ∧
    Audited s₀ 7 (.submit "s") d work report (deletedBetween ++ [.advance 7]) := by
  have hend : (run sixNodes replacementDue).any fun s₀ =>
      s₀.admitted? 7 == some (.submit "s", 0) &&
      (s₀.recordAt 0).any (fun d => d.errorLog.map (·.nodeId) == ["f"]) &&
      (run s₀ deletedBetween).any fun s =>
        (s.procs[7]?).any (fun proc => proc.errand == .submit "s") &&
        ((s.progress? 0 (.advance 7)).bind Progress.ending?).any fun ending =>
          decide (ending.2.lost = 1 ∧ ending.2.created = 1 ∧ ending.2.staleRemoved = 1 ∧
            ending.2.failed = 1 ∧ ending.2.skipped = 1 ∧ ending.2.shortfall = 1 ∧
            ending.2.instances = 4) && ending.1.errorLog.map (·.nodeId) == ["b"] := by
    decide +kernel
  simp only [Option.any_eq_true, Bool.and_eq_true, beq_iff_eq] at hend
  obtain ⟨s₀, hrun₀, ⟨hadmitted, d, hd, hlog⟩, s, hrun, ⟨⟨errand, stage⟩, hsame, herrand⟩,
    ⟨work, report⟩, hprogress, hcounts, hleft⟩ := hend
  obtain ⟨progress, hprogress, hending⟩ := Option.bind_eq_some_iff.1 hprogress
  obtain rfl := Progress.ending?_eq_some.1 hending
  have hproc := State.admitted?_eq_some.1 hadmitted
  have hfresh : sixNodes.Fresh := ⟨rfl, rfl, rfl⟩
  have hI := hfresh.intact.run hrun₀
  have hids := (Tracks.run (hfresh.tracks _ _) (fun _ s l _ => upkeep_distinct s l) hrun₀).record hd
  obtain ⟨p, errand', s₁, hp, -, hturn⟩ := progress?_eq_some_iff.1 hprogress
  obtain rfl : 7 = p := by simpa using hp
  obtain ⟨stage', hworks, -⟩ := hturn.proc
  obtain ⟨rfl, -⟩ : errand = errand' ∧ stage = stage' := by simpa [hsame] using hworks
  obtain rfl : errand = .submit "s" := herrand
  exact ⟨s₀, d, s, s₁, work, report, hrun₀, hI, hproc, hd, hids, rfl, hrun, hturn,
    of_decide_eq_true hcounts, hlog, hleft, reports_balance hI hproc hd hids rfl hrun hturn⟩

end Control

end FleetControl
