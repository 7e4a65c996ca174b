import FleetControl.Pass
import FleetControl.Proofs.Placement.Targets
import FleetControl.Proofs.Registry
import Std.Data.String.ToNat

/-!
# The course of a pass

A pass takes the outcomes of its dispatches one after the other into its working copy, in the order
of the plan, and makes the next plan when the last is carried out. `Pass.Course p₀ p outs` says that
a pass that began as `p₀` has come to the point `p` by the outcomes `outs`, whatever these are. What
is planned at `p` is what is left of the plan.

* `Pass.start_planned` and `Pass.proceed_dispatching` say what the two plans of a pass are;
* `Pass.Course.conclude_dispatching` and `Pass.Course.conclude_finished` : folding all outcomes of a
  plan at once, as the control plane does, follows the course;
* `Pass.Sound` : the ids of the instances, and those planned for new ones, are distinct, and the
  planned removals are of distinct instances there are. It holds along every course
  (`Pass.Course.sound`) that begins with distinct ids (`Deployment.DistinctIds`).
-/

namespace FleetControl

/-! ### Working copies -/

namespace Deployment

/-- `work` is a working copy of the record `d`: a pass changes what there is, not what is wanted. -/
structure CopyOf (work d : Deployment) : Prop where
  id : work.id = d.id
  request : work.request = d.request
  specFingerprint : work.specFingerprint = d.specFingerprint
  generation : work.generation = d.generation

theorem CopyOf.refl (d : Deployment) : d.CopyOf d := ⟨rfl, rfl, rfl, rfl⟩

theorem CopyOf.symm {work d : Deployment} (h : work.CopyOf d) : d.CopyOf work :=
  ⟨h.id.symm, h.request.symm, h.specFingerprint.symm, h.generation.symm⟩

theorem CopyOf.trans {a b c : Deployment} (h : a.CopyOf b) (h' : b.CopyOf c) : a.CopyOf c :=
  ⟨h.id.trans h'.id, h.request.trans h'.request, h.specFingerprint.trans h'.specFingerprint,
    h.generation.trans h'.generation⟩

theorem CopyOf.scale {work d : Deployment} (h : work.CopyOf d) : work.scale = d.scale := by
  rw [Deployment.scale, Deployment.scale, h.request]

theorem CopyOf.isMatched {work d : Deployment} (h : work.CopyOf d) :
    work.isMatched = d.isMatched := by
  funext i
  rw [Deployment.isMatched, Deployment.isMatched, h.specFingerprint]

theorem CopyOf.instanceId {work d : Deployment} (h : work.CopyOf d) :
    work.instanceId = d.instanceId := by
  funext seq
  rw [Deployment.instanceId, Deployment.instanceId, h.id]

theorem instanceId_injective (d : Deployment) : Function.Injective d.instanceId := by
  intro a b h
  exact Nat.repr_injective ((String.append_right_inj _).1 h)

/-- The ids of the instances are distinct, and none is the id that a later creation gets. -/
structure DistinctIds (d : Deployment) : Prop where
  nodup : (d.instances.map (·.id)).Nodup
  fresh : ∀ i ∈ d.instances, ∀ seq, d.nextSeq ≤ seq → i.id ≠ d.instanceId seq

theorem DistinctIds.of_sublist {d d' : Deployment} (h : d.DistinctIds) (hid : d'.id = d.id)
    (hinst : d'.instances.Sublist d.instances) (hseq : d'.nextSeq = d.nextSeq) :
    d'.DistinctIds where
  nodup := h.nodup.sublist (hinst.map _)
  fresh := fun i hi seq hle => by
    rw [instanceId, hid]
    exact h.fresh i (hinst.subset hi) seq (hseq ▸ hle)

/-- The record that takes a pass back keeps its own wishes only. -/
theorem absorb_eq (d work : Deployment) :
    ∃ request specFingerprint generation state,
      d.absorb work = { work with request, specFingerprint, generation, state } := by
  unfold absorb
  split
  · exact ⟨work.request, work.specFingerprint, work.generation, work.state, rfl⟩
  · exact ⟨_, _, _, _, rfl⟩

@[simp] theorem absorb_instances (d work : Deployment) :
    (d.absorb work).instances = work.instances := by
  obtain ⟨_, _, _, _, h⟩ := absorb_eq d work
  rw [h]

theorem DistinctIds.absorb {work : Deployment} (h : work.DistinctIds) (d : Deployment) :
    (d.absorb work).DistinctIds := by
  obtain ⟨_, _, _, _, he⟩ := absorb_eq d work
  rw [he]
  exact h.of_sublist rfl (List.Sublist.refl _) rfl

/-- The record as a pass on it begins. -/
def begun (d : Deployment) : Deployment :=
  if d.needsConvergence then { d with state := .converging } else d

theorem begun_eq (d : Deployment) : ∃ state, d.begun = { d with state } := by
  unfold begun
  split
  · exact ⟨_, rfl⟩
  · exact ⟨d.state, rfl⟩

theorem length_matched (d : Deployment) :
    d.matched.length = d.instances.countP d.isMatched :=
  List.countP_eq_length_filter.symm

theorem length_stale (d : Deployment) :
    d.stale.length = d.instances.countP fun i => !d.isMatched i :=
  List.countP_eq_length_filter.symm

theorem length_matched_add_stale (d : Deployment) :
    d.matched.length + d.stale.length = d.instances.length := by
  have h := List.length_eq_countP_add_countP d.isMatched (l := d.instances)
  simp only [Bool.not_eq_true, Bool.decide_eq_false, List.countP_eq_length_filter] at h
  exact h.symm

end Deployment

namespace Dispatch

/-- The dispatch creates an instance. -/
def isCreate : Dispatch → Bool
  | .create .. => true
  | .remove .. => false

/-- The instance that the dispatch removes. -/
def target? : Dispatch → Option Instance
  | .create .. => none
  | .remove target _ => some target

/-- The sequence number under which the dispatch creates an instance. -/
def seq? : Dispatch → Option Nat
  | .create _ _ seq => some seq
  | .remove .. => none

@[simp] theorem isCreate_create (node : Node) (spec : ContainerSpec) (seq : Nat) :
    (create node spec seq).isCreate = true := rfl

@[simp] theorem isCreate_remove (target : Instance) (stale : Bool) :
    (remove target stale).isCreate = false := rfl

@[simp] theorem target?_create (node : Node) (spec : ContainerSpec) (seq : Nat) :
    (create node spec seq).target? = none := rfl

@[simp] theorem target?_remove (target : Instance) (stale : Bool) :
    (remove target stale).target? = some target := rfl

@[simp] theorem seq?_create (node : Node) (spec : ContainerSpec) (seq : Nat) :
    (create node spec seq).seq? = some seq := rfl

@[simp] theorem seq?_remove (target : Instance) (stale : Bool) :
    (remove target stale).seq? = none := rfl

end Dispatch

namespace Pass

/-! ### Folding one outcome -/

theorem fold_create_ok (now : Nat) (d : Deployment) (r : Report) (node : Node)
    (spec : ContainerSpec) (seq : Nat) (handle : String) :
    (fold now (d, r) ⟨.create node spec seq, .ok handle⟩).1 = { d with
      instances := d.instances ++
        [⟨d.instanceId seq, node.id, handle, d.specFingerprint, now, seq⟩] } := rfl

theorem fold_remove_ok (now : Nat) (d : Deployment) (r : Report) (target : Instance) (stale : Bool)
    (handle : String) :
    (fold now (d, r) ⟨.remove target stale, .ok handle⟩).1 =
      { d with instances := d.instances.filter (·.id != target.id) } := rfl

theorem fold_error (now : Nat) (d : Deployment) (r : Report) (dispatch : Dispatch)
    (error : DispatchError) :
    ∃ errorLog, (fold now (d, r) ⟨dispatch, .error error⟩).1 = { d with errorLog } := by
  cases error <;> cases dispatch <;> exact ⟨_, rfl⟩

/-- An outcome changes the instances and the error log and nothing else. -/
theorem fold_eq (now : Nat) (d : Deployment) (r : Report) (o : Outcome) :
    ∃ instances errorLog, (fold now (d, r) o).1 = { d with instances, errorLog } := by
  obtain ⟨dispatch, result⟩ := o
  cases result with
  | error e =>
    obtain ⟨errorLog, h⟩ := fold_error now d r dispatch e
    exact ⟨d.instances, errorLog, h⟩
  | ok handle => cases dispatch <;> exact ⟨_, d.errorLog, rfl⟩

/-- Take the outcome of the first dispatch of the plan. -/
def take (now : Nat) (o : Outcome) (p : Pass) : Pass :=
  { p with
    work := (fold now (p.work, p.report) o).1
    report := (fold now (p.work, p.report) o).2
    plan := p.plan.tail }

@[simp] theorem take_plan (now : Nat) (o : Outcome) (p : Pass) :
    (p.take now o).plan = p.plan.tail := rfl

/-- What one outcome does to the instances: one more, one less, or nothing. -/
theorem take_instances (now : Nat) (o : Outcome) (p : Pass) :
    (∃ node spec seq handle, o = ⟨.create node spec seq, .ok handle⟩ ∧
      (p.take now o).work.instances = p.work.instances ++
        [⟨p.work.instanceId seq, node.id, handle, p.work.specFingerprint, now, seq⟩]) ∨
    (∃ target stale handle, o = ⟨.remove target stale, .ok handle⟩ ∧
      (p.take now o).work.instances = p.work.instances.filter (·.id != target.id)) ∨
    (∃ error, o.result = .error error) ∧ (p.take now o).work.instances = p.work.instances := by
  obtain ⟨dispatch, result⟩ := o
  cases result with
  | error e =>
    obtain ⟨errorLog, he⟩ := fold_error now p.work p.report dispatch e
    exact .inr (.inr ⟨⟨e, rfl⟩, by rw [take, he]⟩)
  | ok handle =>
    cases dispatch with
    | create node spec seq => exact .inl ⟨node, spec, seq, handle, rfl, rfl⟩
    | remove target stale => exact .inr (.inl ⟨target, stale, handle, rfl, rfl⟩)

theorem take_copyOf (now : Nat) (o : Outcome) (p : Pass) : (p.take now o).work.CopyOf p.work := by
  obtain ⟨instances, errorLog, h⟩ := fold_eq now p.work p.report o
  rw [take, h]
  exact ⟨rfl, rfl, rfl, rfl⟩

theorem take_nextSeq (now : Nat) (o : Outcome) (p : Pass) :
    (p.take now o).work.nextSeq = p.work.nextSeq := by
  obtain ⟨instances, errorLog, h⟩ := fold_eq now p.work p.report o
  rw [take, h]

/-! ### Points of a pass -/

/-- The pass that began as `p₀` has come to `p` by the given outcomes. -/
inductive Course (p₀ : Pass) : Pass → List Outcome → Prop
  /-- No outcome is there yet. -/
  | opened : Course p₀ p₀ []
  /-- The outcome of the next dispatch is taken. -/
  | folded {p : Pass} {outs : List Outcome} {o : Outcome} {rest : List Dispatch} (now : Nat) :
      Course p₀ p outs → p.plan = o.dispatch :: rest → Course p₀ (p.take now o) (outs ++ [o])
  /-- The plan is carried out and the next is made. -/
  | proceeded {p p' : Pass} {outs : List Outcome} (f : Fleet) :
      Course p₀ p outs → p.plan = [] → p.proceed f = .dispatching p' → Course p₀ p' outs

theorem proceed_plan (f : Fleet) (p : Pass) (plan : List Dispatch) :
    ({ p with plan } : Pass).proceed f = p.proceed f := by
  unfold proceed
  cases p.phase <;> rfl

theorem foldAll_cons (now : Nat) (o : Outcome) (rest : List Outcome) (p : Pass) :
    (p.foldAll now (o :: rest)).work = ((p.take now o).foldAll now rest).work := rfl

theorem Course.foldAll {p₀ p : Pass} {outs : List Outcome} (h : Course p₀ p outs) (now : Nat)
    (outcomes : List Outcome) (rest : List Dispatch)
    (hplan : p.plan = outcomes.map (·.dispatch) ++ rest) :
    Course p₀ { p.foldAll now outcomes with plan := rest } (outs ++ outcomes) := by
  induction outcomes generalizing p outs with
  | nil =>
    have : { p.foldAll now [] with plan := rest } = p := by
      rw [← show p.plan = rest from hplan]
      rfl
    rwa [this, List.append_nil]
  | cons o outcomes ih =>
    -- folding all at once takes the outcomes one by one, each with the head of the plan
    have htail : (p.take now o).plan = outcomes.map (·.dispatch) ++ rest := by
      rw [take_plan, hplan]
      rfl
    have := ih (h.folded now hplan) htail
    rwa [List.append_assoc] at this

/-- Folding all outcomes of a plan leads to the next plan along the course. -/
theorem Course.conclude_dispatching {p₀ p p' : Pass} {outs outcomes : List Outcome}
    (h : Course p₀ p outs) {f : Fleet} (hplan : outcomes.map (·.dispatch) = p.plan)
    (hp' : p.conclude f outcomes = .dispatching p') : Course p₀ p' (outs ++ outcomes) := by
  have hfold := h.foldAll f.wall outcomes [] (by rw [hplan, List.append_nil])
  exact hfold.proceeded f rfl ((proceed_plan ..).trans hp')

/-- Folding all outcomes of the last plan leads to the end along the course. -/
theorem Course.conclude_finished {p₀ p : Pass} {outs outcomes : List Outcome}
    (h : Course p₀ p outs) {f : Fleet} (hplan : outcomes.map (·.dispatch) = p.plan)
    {work : Deployment} {report : Report} (hend : p.conclude f outcomes = .finished work report) :
    ∃ q, Course p₀ q (outs ++ outcomes) ∧ q.plan = [] ∧ q.proceed f = .finished work report :=
  ⟨_, h.foldAll f.wall outcomes [] (by rw [hplan, List.append_nil]), rfl,
    (proceed_plan ..).trans hend⟩

/-! ### The plans -/

theorem retirees_subperm (selector : Placement.Selector) (d : Deployment) :
    (retirees selector d).Subperm d.stale :=
  Placement.VictimPolicy.choose_subperm ..

theorem length_retirees (selector : Placement.Selector) (d : Deployment) :
    (retirees selector d).length = min (d.instances.length - d.scale) d.stale.length := by
  rw [← d.length_matched_add_stale]
  refine (Placement.VictimPolicy.length_choose ..).trans ?_
  omega

theorem retirees_eq_nil (selector : Placement.Selector) {d : Deployment} (h : d.stale = []) :
    retirees selector d = [] := by
  rw [← List.length_eq_zero_iff, length_retirees, h]
  exact Nat.min_zero _

/-- The plan after the first is to remove stale instances. -/
theorem proceed_dispatching {f : Fleet} {p p' : Pass} (h : p.proceed f = .dispatching p') :
    p.phase = .scale ∧ p' = { p with
      phase := .retire
      plan := (retirees f.selector p.work).map (Dispatch.remove · true) } := by
  unfold proceed at h
  cases hphase : p.phase with
  | scale =>
    simp only [hphase] at h
    split at h
    · cases h
    · simp only [Progress.dispatching.injEq] at h
      exact ⟨rfl, h.symm⟩
  | retire => simp [hphase, finish] at h
  | drain => simp [hphase, finish] at h

/-- The record that a pass leaves differs from the working copy in its marks alone. -/
theorem finish_eq {now target : Nat} {p : Pass} {work : Deployment} {report : Report}
    (h : p.finish now target = .finished work report) :
    ∃ state degraded, work = { p.work with
      state
      consecutiveDegradedPasses := degraded
      lastReconciledAt := some now
      lastReport := some report } := by
  simp only [finish, Progress.finished.injEq] at h
  obtain ⟨rfl, rfl⟩ := h
  exact ⟨_, _, rfl⟩

theorem proceed_finished {f : Fleet} {p : Pass} {work : Deployment} {report : Report}
    (h : p.proceed f = .finished work report) :
    ∃ target, p.finish f.wall target = .finished work report := by
  unfold proceed at h
  cases hphase : p.phase with
  | scale =>
    simp only [hphase] at h
    split at h
    · exact ⟨_, h⟩
    · cases h
  | retire => exact ⟨_, by simpa only [hphase] using h⟩
  | drain => exact ⟨_, by simpa only [hphase] using h⟩

theorem finished_eq {f : Fleet} {p : Pass} {work : Deployment} {report : Report}
    (h : p.proceed f = .finished work report) :
    work.CopyOf p.work ∧ work.instances = p.work.instances ∧ work.nextSeq = p.work.nextSeq := by
  obtain ⟨target, hfinish⟩ := proceed_finished h
  obtain ⟨state, degraded, rfl⟩ := finish_eq hfinish
  exact ⟨⟨rfl, rfl, rfl, rfl⟩, rfl, rfl⟩

/-- The working copy when a pass begins: lost instances are dropped. -/
def opened (f : Fleet) (d : Deployment) : Deployment :=
  let kept := dropLost f.registry { d with warnings := [] }
  if demand kept != 0 || !kept.stale.isEmpty then { kept with state := .converging } else kept

/-- The report when a pass begins. -/
def openingReport (f : Fleet) (d : Deployment) : Report :=
  { Report.start d f.wall with
    lost := d.instances.length - (dropLost f.registry d).instances.length }

theorem start_eq (f : Fleet) (d : Deployment) :
    start f d =
      if demand (opened f d) ≤ 0 then
        let (selection, selector) :=
          f.selector.select [] (opened f d).matched (demand (opened f d))
        .planned (planScale (opened f d) (openingReport f d) 0 selection) selector
      else
        match Placement.elect (opened f d).request f.tree f.registry.list with
        | .error e => .failed (opened f d) e
        | .ok election =>
          let (selection, selector) :=
            f.selector.select election.nodes (opened f d).matched (demand (opened f d))
          .planned (planScale { opened f d with targetRegions := election.targetRegions }
            { openingReport f d with eligible := some election.nodes.length }
            election.nodes.length selection) selector := rfl

theorem opened_eq (f : Fleet) (d : Deployment) :
    ∃ state, opened f d = { dropLost f.registry d with warnings := [], state } := by
  unfold opened
  dsimp only
  split
  · exact ⟨_, rfl⟩
  · exact ⟨_, rfl⟩

theorem opened_copyOf (f : Fleet) (d : Deployment) : (opened f d).CopyOf d := by
  obtain ⟨state, h⟩ := opened_eq f d
  rw [h]
  exact ⟨rfl, rfl, rfl, rfl⟩

@[simp] theorem opened_instances (f : Fleet) (d : Deployment) :
    (opened f d).instances = (dropLost f.registry d).instances := by
  obtain ⟨state, h⟩ := opened_eq f d
  rw [h]

@[simp] theorem opened_matched (f : Fleet) (d : Deployment) :
    (opened f d).matched = (dropLost f.registry d).matched := by
  obtain ⟨state, h⟩ := opened_eq f d
  rw [h]
  rfl

@[simp] theorem opened_nextSeq (f : Fleet) (d : Deployment) :
    (opened f d).nextSeq = d.nextSeq := by
  obtain ⟨state, h⟩ := opened_eq f d
  rw [h]
  rfl

theorem demand_opened (f : Fleet) (d : Deployment) :
    demand (opened f d) = (d.scale : Int) - (dropLost f.registry d).matched.length := by
  rw [demand, (opened_copyOf f d).scale, opened_matched]

/-- The first plan of a pass on the record `d`: to remove matched instances beyond the scale, or to
create the missing ones on elected nodes. -/
inductive FirstPlan (f : Fleet) (d : Deployment) (p : Pass) : Prop
  | remove (victims : List Instance) :
      d.scale ≤ (dropLost f.registry d).matched.length →
      victims = f.selector.selectVictims (dropLost f.registry d).matched
        (min ((dropLost f.registry d).matched.length - d.scale) Placement.maxDemand) →
      p.plan = victims.map (Dispatch.remove · false) →
      p.work.nextSeq = d.nextSeq → FirstPlan f d p
  | create (election : Placement.Election) (targets : List Node) :
      (dropLost f.registry d).matched.length < d.scale →
      Placement.elect d.request f.tree f.registry.list = .ok election →
      targets = (f.selector.selectTargets election.nodes (dropLost f.registry d).matched
        (d.scale - (dropLost f.registry d).matched.length)).1.nodes →
      p.plan = creations d.request.container d.nextSeq targets →
      p.work.nextSeq = d.nextSeq + targets.length → FirstPlan f d p

theorem scale_le_maxDemand (d : Deployment) : d.scale ≤ Placement.maxDemand := by
  have := d.request.scale.toNat_lt_size
  rw [Placement.maxDemand, Deployment.scale]
  omega

/-- What a pass is when it begins. -/
theorem start_planned {f : Fleet} {d : Deployment} {p : Pass} {selector : Placement.Selector}
    (h : start f d = .planned p selector) :
    p.work.CopyOf d ∧ p.work.instances = (dropLost f.registry d).instances ∧ p.phase = .scale ∧
      FirstPlan f d p ∧ selector.victims = f.selector.victims ∧
      selector.maxInstancesPerNode = f.selector.maxInstancesPerNode := by
  have hcopy := opened_copyOf f d
  have hinst := opened_instances f d
  have hdemand := demand_opened f d
  rw [start_eq] at h
  split at h
  · next hle =>
    have hpol := f.selector.select_policies [] (opened f d).matched (demand (opened f d))
    simp only [Opening.planned.injEq] at h
    obtain ⟨rfl, rfl⟩ := h
    by_cases hzero : demand (opened f d) = 0
    · -- nothing to do is the removal of no victims
      have hscale : (dropLost f.registry d).matched.length - d.scale = 0 := by omega
      refine ⟨?_, ?_, ?_, .remove [] (by omega) ?_ ?_ ?_, hpol⟩
      all_goals simp [hzero, Placement.Selector.select, planScale, hcopy, hscale,
        Placement.Selector.selectVictims_zero]
    · have hneg : demand (opened f d) < 0 := by omega
      have habs : (demand (opened f d)).natAbs =
          (dropLost f.registry d).matched.length - d.scale := by omega
      refine ⟨?_, ?_, ?_, .remove _ (by omega) rfl ?_ ?_, hpol⟩
      all_goals simp [Placement.Selector.select_of_neg _ _ _ hneg, planScale, hcopy, habs]
  · next hlt =>
    have hpos : 0 < demand (opened f d) := by omega
    have hmin : min (demand (opened f d)).toNat Placement.maxDemand =
        d.scale - (dropLost f.registry d).matched.length := by
      have := scale_le_maxDemand d
      omega
    split at h
    · cases h
    · next election hel =>
      have hpol := f.selector.select_policies election.nodes (opened f d).matched
        (demand (opened f d))
      simp only [Opening.planned.injEq] at h
      obtain ⟨rfl, rfl⟩ := h
      rw [hcopy.request] at hel
      simp only [Placement.Selector.select_of_pos _ _ _ hpos, hmin, planScale, planCreate,
        opened_matched] at hpol ⊢
      refine ⟨⟨hcopy.id, hcopy.request, hcopy.specFingerprint, hcopy.generation⟩, hinst, trivial,
        .create election _ (by omega) hel rfl ?_ ?_, hpol⟩
      · rw [hcopy.request, opened_nextSeq]
      · rw [opened_nextSeq]

/-- A failed election leaves the instances that are not lost. -/
theorem start_failed {f : Fleet} {d work : Deployment} {e : Region.Error}
    (h : start f d = .failed work e) :
    work.CopyOf d ∧ work.instances = (dropLost f.registry d).instances ∧
      work.nextSeq = d.nextSeq := by
  rw [start_eq] at h
  split at h
  · cases h
  · split at h
    · cases h
      exact ⟨opened_copyOf f d, opened_instances f d, opened_nextSeq f d⟩
    · cases h

/-! ### Distinct ids along a course -/

/-- The ids of the instances and those that the plan gives to new ones. -/
def ids (p : Pass) : List String :=
  p.work.instances.map (·.id) ++ (p.plan.filterMap Dispatch.seq?).map p.work.instanceId

/-- The instances that the plan removes. -/
def targets (p : Pass) : List Instance := p.plan.filterMap Dispatch.target?

/-- The ids there are and those planned are distinct, and none is the id that a later creation gets;
removals are of distinct instances there are. -/
structure Sound (p : Pass) : Prop where
  nodup : p.ids.Nodup
  fresh : ∀ id ∈ p.ids, ∀ seq, p.work.nextSeq ≤ seq → id ≠ p.work.instanceId seq
  targets_nodup : p.targets.Nodup
  targets_subset : p.targets ⊆ p.work.instances

theorem Sound.distinctIds {p : Pass} (h : p.Sound) : p.work.DistinctIds where
  nodup := (List.nodup_append.1 h.nodup).1
  fresh := fun _ hi => h.fresh _ (List.mem_append_left _ (List.mem_map_of_mem hi))

/-- Two instances with one id are the same. -/
theorem Sound.eq_of_id_eq {p : Pass} (h : p.Sound) {i j : Instance} (hi : i ∈ p.work.instances)
    (hj : j ∈ p.work.instances) (hij : i.id = j.id) : i = j :=
  List.inj_on_of_nodup_map h.distinctIds.nodup hi hj hij

/-- Removing an instance by its id removes it alone. -/
theorem Sound.filter_id_ne {p : Pass} (h : p.Sound) {target : Instance}
    (ht : target ∈ p.work.instances) :
    p.work.instances.filter (·.id != target.id) = p.work.instances.erase target := by
  rw [(List.Nodup.of_map _ h.distinctIds.nodup).erase_eq_filter]
  refine List.filter_congr fun i hi => ?_
  rw [Bool.eq_iff_iff, bne_iff_ne, bne_iff_ne]
  exact not_congr ⟨h.eq_of_id_eq hi ht, fun he => he ▸ rfl⟩

theorem Sound.of_sublist {p q : Pass} (h : p.Sound) (hcopy : q.work.CopyOf p.work)
    (hseq : q.work.nextSeq = p.work.nextSeq) (hids : q.ids.Sublist p.ids)
    (hnodup : q.targets.Nodup) (hsub : q.targets ⊆ q.work.instances) : q.Sound where
  nodup := h.nodup.sublist hids
  fresh := fun id hid seq hle => by
    rw [hcopy.instanceId]
    exact h.fresh id (hids.subset hid) seq (hseq ▸ hle)
  targets_nodup := hnodup
  targets_subset := hsub

theorem Sound.take {p : Pass} (h : p.Sound) (now : Nat) {o : Outcome} {rest : List Dispatch}
    (hplan : p.plan = o.dispatch :: rest) : (p.take now o).Sound := by
  obtain ⟨dispatch, result⟩ := o
  have htail : (p.take now ⟨dispatch, result⟩).plan = rest := by rw [take_plan, hplan]; rfl
  have hid := (take_copyOf now ⟨dispatch, result⟩ p).instanceId
  have htargets := h.targets_nodup
  have hsubset := h.targets_subset
  rw [targets, hplan] at htargets hsubset
  refine h.of_sublist (take_copyOf ..) (take_nextSeq ..) ?_ ?_ ?_
  · -- the ids: a created instance has the id that was planned for it
    rw [ids, ids, hid, htail, hplan]
    cases result with
    | error e =>
      obtain ⟨errorLog, he⟩ := fold_error now p.work p.report dispatch e
      rw [Pass.take, he]
      refine List.Sublist.append_left (List.Sublist.map _ ?_) _
      exact (List.sublist_cons_self ..).filterMap _
    | ok handle =>
      cases dispatch with
      | create node spec seq => simp [Pass.take, fold_create_ok]
      | remove target stale =>
        rw [Pass.take, fold_remove_ok]
        exact (List.filter_sublist.map _).append_right _
  · rw [targets, htail]
    exact htargets.sublist ((List.sublist_cons_self ..).filterMap _)
  · rw [targets, htail]
    intro t ht
    have hold : t ∈ p.work.instances :=
      hsubset (((List.sublist_cons_self ..).filterMap _).subset ht)
    obtain ⟨_, _, _, _, -, hinst⟩ | ⟨target, _, _, ho, hinst⟩ | ⟨-, hinst⟩ :=
      take_instances now ⟨dispatch, result⟩ p
    · exact hinst ▸ List.mem_append_left _ hold
    · -- the removed instance is not planned for removal again
      obtain ⟨rfl, -⟩ := Outcome.mk.inj ho
      simp only [List.filterMap_cons, Dispatch.target?_remove, List.nodup_cons] at htargets
      have htarget : target ∈ p.work.instances := hsubset (by simp)
      have hne : t.id ≠ target.id := fun he => htargets.1 (h.eq_of_id_eq hold htarget he ▸ ht)
      exact hinst ▸ List.mem_filter.2 ⟨hold, by simpa using hne⟩
    · exact hinst ▸ hold

theorem targets_map_remove (retired : List Instance) (stale : Bool) :
    (retired.map (Dispatch.remove · stale)).filterMap Dispatch.target? = retired := by
  rw [List.filterMap_map]
  exact List.filterMap_some

theorem seqs_map_remove (retired : List Instance) (stale : Bool) :
    (retired.map (Dispatch.remove · stale)).filterMap Dispatch.seq? = [] := by
  rw [List.filterMap_map, List.filterMap_eq_nil_iff]
  exact fun _ _ => rfl

/-- A plan to remove some of the instances there are is sound. -/
theorem sound_of_removals {p : Pass} (hd : p.work.DistinctIds) {retired : List Instance}
    (hr : retired.Subperm p.work.instances) {stale : Bool}
    (hplan : p.plan = retired.map (Dispatch.remove · stale)) : p.Sound := by
  have hids : p.ids = p.work.instances.map (·.id) := by
    rw [ids, hplan, seqs_map_remove, List.map_nil, List.append_nil]
  have htargets : p.targets = retired := by rw [targets, hplan, targets_map_remove]
  constructor
  · exact hids ▸ hd.nodup
  · rw [hids]
    intro id hid
    obtain ⟨i, hi, rfl⟩ := List.mem_map.1 hid
    exact hd.fresh i hi
  · rw [htargets]
    obtain ⟨l, hl, hsub⟩ := hr
    exact hl.nodup_iff.1 ((List.Nodup.of_map _ hd.nodup).sublist hsub)
  · exact htargets ▸ hr.subset

/-- Along a course the working copy is of one record. -/
theorem Course.copyOf {p₀ p : Pass} {outs : List Outcome} (h : Course p₀ p outs) :
    p.work.CopyOf p₀.work := by
  induction h with
  | opened => exact .refl _
  | folded now _ _ ih => exact (take_copyOf ..).trans ih
  | proceeded f _ _ hnext ih =>
    obtain ⟨-, rfl⟩ := proceed_dispatching hnext
    exact ih

/-- Along a course the ids stay distinct. -/
theorem Course.sound {p₀ p : Pass} {outs : List Outcome} (h : Course p₀ p outs) (h₀ : p₀.Sound) :
    p.Sound := by
  induction h with
  | opened => exact h₀
  | folded now _ hplan ih => exact ih.take now hplan
  | @proceeded p _ _ f _ _ hnext ih =>
    obtain ⟨-, rfl⟩ := proceed_dispatching hnext
    have hsub : p.work.stale.Subperm p.work.instances := List.filter_sublist.subperm
    exact sound_of_removals ih.distinctIds ((retirees_subperm ..).trans hsub) rfl

theorem seqs_creations (spec : ContainerSpec) (seq : Nat) (nodes : List Node) :
    (creations spec seq nodes).filterMap Dispatch.seq? = List.range' seq nodes.length := by
  induction nodes generalizing seq with
  | nil => rfl
  | cons node rest ih => simp [creations, List.range'_succ, ih]

theorem targets_creations (spec : ContainerSpec) (seq : Nat) (nodes : List Node) :
    (creations spec seq nodes).filterMap Dispatch.target? = [] := by
  induction nodes generalizing seq with
  | nil => rfl
  | cons node rest ih => simp only [creations, List.filterMap_cons, Dispatch.target?_create, ih]

theorem dropLost_sublist (registry : Registry) (d : Deployment) :
    (dropLost registry d).instances.Sublist d.instances :=
  List.filter_sublist

theorem dropLost_instances_eq {r : Registry} {d : Deployment}
    (h : ∀ i ∈ d.instances, r.Knows i.nodeId) : (dropLost r d).instances = d.instances :=
  List.filter_eq_self.2 h

theorem sound_of_start {f : Fleet} {d : Deployment} (hd : d.DistinctIds) {p : Pass}
    {selector : Placement.Selector} (h : start f d = .planned p selector) : p.Sound := by
  obtain ⟨hcopy, hinst, -, hplan, -⟩ := start_planned h
  have hsub : p.work.instances.Sublist d.instances := hinst ▸ dropLost_sublist ..
  have hnodup : (p.work.instances.map (·.id)).Nodup := hd.nodup.sublist (hsub.map _)
  cases hplan with
  | remove victims hle hv hplan hseq =>
    have hdist : p.work.DistinctIds :=
      ⟨hnodup, fun i hi seq hle => hcopy.instanceId ▸ hd.fresh i (hsub.subset hi) seq (hseq ▸ hle)⟩
    refine sound_of_removals hdist ?_ hplan
    rw [hv, hinst]
    refine (Placement.VictimPolicy.choose_subperm ..).trans ?_
    exact List.filter_sublist.subperm
  | create election targets hlt hel ht hplan hseq =>
    have hids : p.ids = p.work.instances.map (·.id) ++
        (List.range' d.nextSeq targets.length).map d.instanceId := by
      rw [ids, hplan, seqs_creations, hcopy.instanceId]
    have htargets : p.targets = [] := by rw [Pass.targets, hplan, targets_creations]
    refine ⟨?_, ?_, htargets ▸ List.nodup_nil, by simp [htargets]⟩
    · -- the ids of new instances are numbered from `nextSeq` on, where no id is in use
      rw [hids, List.nodup_append]
      refine ⟨hnodup, List.Nodup.map d.instanceId_injective (List.nodup_range' ..), ?_⟩
      intro a ha b hb
      obtain ⟨i, hi, rfl⟩ := List.mem_map.1 ha
      obtain ⟨seq, hseq, rfl⟩ := List.mem_map.1 hb
      exact hd.fresh i (hsub.subset hi) seq (List.mem_range'_1.1 hseq).1
    · rw [hids, hcopy.instanceId]
      intro id hid seq hle
      rcases List.mem_append.1 hid with hid | hid
      · obtain ⟨i, hi, rfl⟩ := List.mem_map.1 hid
        exact hd.fresh i (hsub.subset hi) seq (by omega)
      · obtain ⟨k, hk, rfl⟩ := List.mem_map.1 hid
        have hlt := (List.mem_range'_1.1 hk).2
        exact d.instanceId_injective.ne (by omega)

theorem sound_startDrain (now : Nat) {d : Deployment} (hd : d.DistinctIds) :
    (startDrain now d).Sound :=
  sound_of_removals hd (List.Subperm.refl _) rfl

/-! ### Hosts along a course -/

/-- Every instance is on a known node, and instances are planned on known nodes. -/
structure Hosted (r : Registry) (p : Pass) : Prop where
  instances : ∀ i ∈ p.work.instances, r.Knows i.nodeId
  plan : ∀ x ∈ p.plan, x.isCreate → r.Knows x.nodeId

theorem Hosted.mono {r r' : Registry} {p : Pass} (h : p.Hosted r)
    (hr : ∀ id, r.Knows id → r'.Knows id) : p.Hosted r' :=
  ⟨fun i hi => hr _ (h.instances i hi), fun x hx hc => hr _ (h.plan x hx hc)⟩

theorem Course.hosted {r : Registry} {p₀ p : Pass} {outs : List Outcome} (h : Course p₀ p outs)
    (h₀ : p₀.Hosted r) : p.Hosted r := by
  induction h with
  | opened => exact h₀
  | @folded p _ o rest now _ hplan ih =>
    refine ⟨fun i hi => ?_, fun x hx => ih.plan x (by
      rw [take_plan] at hx; exact List.mem_of_mem_tail hx)⟩
    obtain ⟨node, spec, seq, handle, rfl, hinst⟩ | ⟨_, _, _, -, hinst⟩ | ⟨-, hinst⟩ :=
      take_instances now o p
    · rw [hinst] at hi
      rcases List.mem_append.1 hi with hi | hi
      · exact ih.instances i hi
      · rw [List.mem_singleton.1 hi]
        exact ih.plan (.create node spec seq) (by rw [hplan]; exact List.mem_cons_self) rfl
    · rw [hinst] at hi
      exact ih.instances i (List.mem_of_mem_filter hi)
    · rw [hinst] at hi
      exact ih.instances i hi
  | proceeded f _ _ hnext ih =>
    obtain ⟨-, rfl⟩ := proceed_dispatching hnext
    refine ⟨ih.instances, fun x hx hc => ?_⟩
    obtain ⟨i, -, rfl⟩ := List.mem_map.1 hx
    cases hc

theorem mem_creations {spec : ContainerSpec} {seq : Nat} {nodes : List Node} {x : Dispatch}
    (h : x ∈ creations spec seq nodes) : ∃ node ∈ nodes, x.nodeId = node.id := by
  induction nodes generalizing seq with
  | nil => cases h
  | cons node rest ih =>
    rcases List.mem_cons.1 h with rfl | h
    · exact ⟨node, List.mem_cons_self, rfl⟩
    · obtain ⟨n, hn, hx⟩ := ih h
      exact ⟨n, List.mem_cons_of_mem _ hn, hx⟩

/-- What a pass plans to create is on elected nodes, and these are known. -/
theorem hosted_of_start {f : Fleet} (hf : f.registry.Keyed) {d : Deployment} {p : Pass}
    {selector : Placement.Selector} (h : start f d = .planned p selector) :
    p.Hosted f.registry := by
  obtain ⟨-, hinst, -, hplan, -⟩ := start_planned h
  refine ⟨fun i hi => ?_, fun x hx hc => ?_⟩
  · rw [hinst] at hi
    exact (List.mem_filter.1 hi).2
  · cases hplan with
    | remove victims _ _ hplan _ =>
      rw [hplan] at hx
      obtain ⟨i, -, rfl⟩ := List.mem_map.1 hx
      cases hc
    | create election targets _ hel ht hplan _ =>
      rw [hplan] at hx
      obtain ⟨node, hnode, hid⟩ := mem_creations hx
      rw [ht] at hnode
      have hcand := (Placement.Selector.selectTargets_subperm ..).subset hnode
      have hknown := Placement.mem_known_of_elected hel (List.mem_of_mem_filter hcand)
      exact hid ▸ hf.knows_of_mem_list hknown

/-! ### Well placed records and passes -/

/-- The ids of the instances are distinct, and every instance is on a known node. -/
structure WellPlaced (r : Registry) (d : Deployment) : Prop where
  distinctIds : d.DistinctIds
  known : ∀ i ∈ d.instances, r.Knows i.nodeId

/-- The ids there are and those planned are distinct, and all is on known nodes. -/
structure WellPlanned (r : Registry) (p : Pass) : Prop where
  sound : p.Sound
  hosted : p.Hosted r

section

variable {r r' : Registry} {d work : Deployment} {p : Pass}

theorem WellPlaced.mono (h : WellPlaced r d) (hr : ∀ id, r.Knows id → r'.Knows id) :
    WellPlaced r' d :=
  ⟨h.distinctIds, fun i hi => hr _ (h.known i hi)⟩

theorem WellPlaced.begun (h : WellPlaced r d) : WellPlaced r d.begun := by
  obtain ⟨state, heq⟩ := d.begun_eq
  rw [heq]
  exact ⟨h.distinctIds.of_sublist rfl (List.Sublist.refl _) rfl, h.known⟩

theorem WellPlaced.absorb (h : WellPlaced r work) (d : Deployment) :
    WellPlaced r (d.absorb work) := by
  refine ⟨h.distinctIds.absorb d, ?_⟩
  rw [Deployment.absorb_instances]
  exact h.known

theorem WellPlanned.mono (h : WellPlanned r p) (hr : ∀ id, r.Knows id → r'.Knows id) :
    WellPlanned r' p :=
  ⟨h.sound, h.hosted.mono hr⟩

theorem WellPlaced.startDrain (h : WellPlaced r d) (now : Nat) :
    WellPlanned r (startDrain now d) := by
  refine ⟨sound_startDrain now h.distinctIds, h.known, fun x hx hcreate => ?_⟩
  obtain ⟨i, -, rfl⟩ := List.mem_map.1 hx
  cases hcreate

theorem WellPlanned.course (h : WellPlanned r p) {q : Pass} {outs : List Outcome}
    (hcourse : Course p q outs) : WellPlanned r q :=
  ⟨hcourse.sound h.sound, hcourse.hosted h.hosted⟩

/-- What a pass leaves is well placed. -/
theorem WellPlanned.finished (h : WellPlanned r p) {f : Fleet} {report : Report}
    (hend : p.proceed f = .finished work report) : WellPlaced r work := by
  obtain ⟨hcopy, hinst, hseq⟩ := finished_eq hend
  refine ⟨h.sound.distinctIds.of_sublist hcopy.id (hinst ▸ List.Sublist.refl _) hseq, ?_⟩
  rw [hinst]
  exact h.hosted.instances

/-- A pass on a well placed record is well planned. -/
theorem WellPlaced.start {f : Fleet} (h : WellPlaced f.registry d) (hf : f.registry.Keyed)
    {selector : Placement.Selector} (hstart : start f d = .planned p selector) :
    WellPlanned f.registry p :=
  ⟨sound_of_start h.distinctIds hstart, hosted_of_start hf hstart⟩

end

end Pass

end FleetControl
