import FleetControl.Proofs.Pass.Success
import FleetControl.Proofs.Pass.Truth

/-!
# The sizes of a pass

A pass counts instances, nodes and dispatches in words of 32 bits. On a record and a registry of
fewer than `UInt32.size` entries what it counts fits (`Pass.Fits`, `Pass.Course.fits`): plans are
no longer than the scale or the instances there are, and elected nodes are known ones. A stale
instance never comes (`Pass.Course.length_stale_le`), so the instances in the end are at most those
there were or the stale ones and the scale (`Pass.Course.length_instances_le`). That is a bound of
33 bits, and it is reached (`Pass.exists_overfull`).

A record keeps its last failures within its capacity, which is at least one
(`Deployment.LogWithin`).
-/

namespace FleetControl

/-! ### Error logs -/

namespace Deployment

/-- The record keeps failures up to a capacity, and no more. -/
structure LogWithin (capacity : Nat) (d : Deployment) : Prop where
  limit : d.errorLogCapacity = capacity
  length_le : d.errorLog.length ≤ capacity

section

variable {capacity : Nat} {d work : Deployment}

/-- Where a failure is noted, the log has room for it by then. -/
theorem length_drop_errorLog_lt (d : Deployment) (h : 1 ≤ d.errorLogCapacity) :
    (d.errorLog.drop (d.errorLog.length + 1 - d.errorLogCapacity)).length <
      d.errorLogCapacity := by
  rw [List.length_drop]
  omega

theorem logWithin_new (id : String) (request : Request) (capacity now : Nat) :
    (new id request capacity now).LogWithin (max capacity 1) :=
  ⟨rfl, Nat.zero_le _⟩

theorem LogWithin.recordFailure (h : d.LogWithin capacity) (hroom : 1 ≤ capacity) (x : Failure) :
    (d.recordFailure x).LogWithin capacity := by
  refine ⟨h.limit, ?_⟩
  have hlt := d.length_drop_errorLog_lt (h.limit ▸ hroom)
  rw [h.limit] at hlt
  rw [Deployment.recordFailure, List.length_append, h.limit]
  exact hlt

theorem LogWithin.update (h : d.LogWithin capacity) (request : Request) :
    (d.update request).LogWithin capacity :=
  ⟨h.limit, h.length_le⟩

theorem LogWithin.begun (h : d.LogWithin capacity) : d.begun.LogWithin capacity := by
  obtain ⟨state, heq⟩ := d.begun_eq
  rw [heq]
  exact ⟨h.limit, h.length_le⟩

theorem LogWithin.absorb (h : work.LogWithin capacity) (d : Deployment) :
    (d.absorb work).LogWithin capacity := by
  obtain ⟨_, _, _, _, heq⟩ := absorb_eq d work
  rw [heq]
  exact ⟨h.limit, h.length_le⟩

end

end Deployment

/-- The numbers of the warning fit in 32 bits, and what is missing is part of what is needed. -/
def Warning.Fits : Warning → Prop
  | .underProvisioned needed eligible shortfall =>
    needed < UInt32.size ∧ eligible < UInt32.size ∧ shortfall ≤ needed

namespace Placement

/-- No more nodes are elected than are known. -/
theorem length_elected_le {request : Request} {t : Region.Tree} {known : List Node} {e : Election}
    (h : elect request t known = .ok e) : e.nodes.length ≤ known.length := by
  have hsub : e.nodes ⊆ known := fun node hnode => mem_known_of_elected h hnode
  exact (List.subperm_of_subset (List.Nodup.of_map _ (nodup_elected h)) hsub).length_le

/-- The targets are part of a demand, and with what they leave of it they make it up. -/
theorem Selector.length_add_shortfall (s : Selector) (elected : List Node)
    (current : List Instance) (demand : Nat) :
    (s.selectTargets elected current demand).1.nodes.length ≤ demand ∧
      (s.selectTargets elected current demand).1.nodes.length +
        (s.selectTargets elected current demand).1.shortfall = demand := by
  have hle : (s.selectTargets elected current demand).1.nodes.length ≤ demand := by
    rw [length_selectTargets]
    exact Nat.min_le_left ..
  refine ⟨hle, ?_⟩
  rw [shortfall_selectTargets]
  exact Nat.add_sub_of_le hle

end Placement

namespace Pass

variable {f : Fleet} {d work : Deployment} {p₀ p : Pass} {selector : Placement.Selector}
  {outs : List Outcome} {report : Report}

/-! ### Error logs along a course -/

section

variable {capacity : Nat}

/-- An outcome is noted in the error log or leaves it alone. -/
theorem fold_errorLog (now : Nat) (d : Deployment) (r : Report) (o : Outcome) :
    (∃ instances, (fold now (d, r) o).1 = { d with instances }) ∨
      ∃ x, (fold now (d, r) o).1 = d.recordFailure x := by
  obtain ⟨dispatch, result⟩ := o
  cases result with
  | ok handle => cases dispatch <;> exact .inl ⟨_, rfl⟩
  | error e =>
    cases e with
    | cancelled => cases dispatch <;> exact .inl ⟨d.instances, rfl⟩
    | engine _ => cases dispatch <;> exact .inr ⟨_, rfl⟩
    | timeout _ => cases dispatch <;> exact .inr ⟨_, rfl⟩

theorem Course.logWithin (h : Course p₀ p outs) (hroom : 1 ≤ capacity)
    (h₀ : p₀.work.LogWithin capacity) : p.work.LogWithin capacity := by
  induction h with
  | opened => exact h₀
  | @folded p _ o _ now _ _ ih =>
    rw [take]
    rcases fold_errorLog now p.work p.report o with ⟨instances, heq⟩ | ⟨x, heq⟩
    · rw [heq]
      exact ⟨ih.limit, ih.length_le⟩
    · rw [heq]
      exact ih.recordFailure hroom x
  | proceeded f _ _ hnext ih =>
    obtain ⟨-, rfl⟩ := proceed_dispatching hnext
    exact ih

theorem logWithin_opened (hd : d.LogWithin capacity) (f : Fleet) :
    (opened f d).LogWithin capacity := by
  obtain ⟨state, heq⟩ := opened_eq f d
  rw [heq]
  exact ⟨hd.limit, hd.length_le⟩

theorem logWithin_planScale (hd : d.LogWithin capacity) (r : Report) (eligible : Nat)
    (selection : Placement.Selection) :
    (planScale d r eligible selection).work.LogWithin capacity := by
  cases selection <;> exact ⟨hd.limit, hd.length_le⟩

theorem logWithin_of_start (h : start f d = .planned p selector) (hd : d.LogWithin capacity) :
    p.work.LogWithin capacity := by
  have hopened := logWithin_opened hd f
  rw [start_eq] at h
  split at h
  · simp only [Opening.planned.injEq] at h
    obtain ⟨rfl, -⟩ := h
    exact logWithin_planScale hopened ..
  · split at h
    · cases h
    · simp only [Opening.planned.injEq] at h
      obtain ⟨rfl, -⟩ := h
      refine logWithin_planScale ?_ ..
      exact ⟨hopened.limit, hopened.length_le⟩

theorem logWithin_of_failed {e : Region.Error} (h : start f d = .failed work e)
    (hd : d.LogWithin capacity) : work.LogWithin capacity := by
  rw [start_eq] at h
  split at h
  · cases h
  · split at h
    · cases h
      exact logWithin_opened hd f
    · cases h

theorem logWithin_of_finished (h : p.proceed f = .finished work report)
    (hp : p.work.LogWithin capacity) : work.LogWithin capacity := by
  obtain ⟨target, hfinish⟩ := proceed_finished h
  obtain ⟨state, degraded, rfl⟩ := finish_eq hfinish
  exact ⟨hp.limit, hp.length_le⟩

end

/-! ### Plans -/

theorem length_creations (spec : ContainerSpec) (seq : Nat) (nodes : List Node) :
    (creations spec seq nodes).length = nodes.length := by
  induction nodes generalizing seq with
  | nil => rfl
  | cons node rest ih => rw [creations, List.length_cons, ih, List.length_cons]

theorem length_dropLost_le (r : Registry) (d : Deployment) :
    (dropLost r d).instances.length ≤ d.instances.length :=
  (dropLost_sublist r d).length_le

theorem length_stale_dropLost_le (r : Registry) (d : Deployment) :
    (dropLost r d).stale.length ≤ d.stale.length :=
  ((dropLost_sublist r d).filter _).length_le

/-- The first plan is no longer than the scale or the instances there are. -/
theorem length_plan_of_start (h : start f d = .planned p selector) :
    p.plan.length ≤ max d.instances.length d.scale := by
  have hkept := length_dropLost_le f.registry d
  have hmatched := (dropLost f.registry d).length_matched_add_stale
  obtain ⟨-, -, -, hplan, -⟩ := start_planned h
  cases hplan with
  | remove victims _ hv hplan _ =>
    have hlength : victims.length ≤ (dropLost f.registry d).matched.length := by
      rw [hv]
      exact (Placement.VictimPolicy.choose_subperm ..).length_le
    rw [hplan, List.length_map]
    omega
  | create election targets _ _ ht hplan _ =>
    have hlength := (f.selector.length_add_shortfall election.nodes
      (dropLost f.registry d).matched (d.scale - (dropLost f.registry d).matched.length)).1
    rw [← ht] at hlength
    rw [hplan, length_creations]
    omega

/-! ### Instances -/

/-- A stale instance does not come by an outcome. -/
theorem length_stale_take_le (now : Nat) (o : Outcome) (p : Pass) :
    (p.take now o).work.stale.length ≤ p.work.stale.length := by
  rw [Deployment.length_stale, Deployment.length_stale, (take_copyOf now o p).isMatched]
  obtain ⟨_, _, _, _, -, hinst⟩ | ⟨_, _, _, -, hinst⟩ | ⟨-, hinst⟩ := take_instances now o p
  · -- a new instance is matched
    rw [hinst, List.countP_append, List.countP_singleton]
    simp [Deployment.isMatched]
  · rw [hinst]
    exact List.filter_sublist.countP_le
  · rw [hinst]

/-- **No stale instance comes in a pass.** -/
theorem Course.length_stale_le (h : Course p₀ p outs) :
    p.work.stale.length ≤ p₀.work.stale.length := by
  induction h with
  | opened => exact Nat.le_refl _
  | folded now _ _ ih => exact Nat.le_trans (length_stale_take_le ..) ih
  | proceeded f _ _ hnext ih =>
    obtain ⟨-, rfl⟩ := proceed_dispatching hnext
    exact ih

theorem length_stale_of_start (h : start f d = .planned p selector) :
    p.work.stale.length ≤ d.stale.length := by
  obtain ⟨hcopy, hinst, -⟩ := start_planned h
  have hstale : p.work.stale = (dropLost f.registry d).stale := by
    rw [Deployment.stale, hcopy.isMatched, hinst]
    rfl
  rw [hstale]
  exact length_stale_dropLost_le ..

/-- **In a pass there are never more instances than there were, or than the stale ones and the
scale come to.** -/
theorem Course.length_instances_le (hstart : start f d = .planned p₀ selector)
    (h : Course p₀ p outs) :
    p.work.instances.length ≤ max d.instances.length (d.stale.length + d.scale) := by
  have hmatched := h.matched_le hstart
  have hstale := Nat.le_trans h.length_stale_le (length_stale_of_start hstart)
  have hkept : (dropLost f.registry d).matched.length ≤ d.matched.length :=
    ((dropLost_sublist f.registry d).filter _).length_le
  have hsum := p.work.length_matched_add_stale
  have hsum₀ := d.length_matched_add_stale
  omega

/-- In a drain there are never more instances than there were. -/
theorem Course.length_instances_drain_le {now : Nat} (h : Course (startDrain now d) p outs) :
    p.work.instances.length ≤ d.instances.length := by
  have hplan : ∀ x ∈ (startDrain now d).plan, x.isCreate = false := by
    intro x hx
    obtain ⟨i, -, rfl⟩ := List.mem_map.1 hx
    rfl
  suffices hall : (∀ x ∈ p.plan, x.isCreate = false) ∧
      p.work.instances.length ≤ d.instances.length from hall.2
  induction h with
  | opened => exact ⟨hplan, Nat.le_refl _⟩
  | @folded p _ o rest now _ hp ih =>
    obtain ⟨hremoves, hle⟩ := ih
    refine ⟨fun x hx => hremoves x (List.mem_of_mem_tail hx), ?_⟩
    obtain ⟨node, spec, seq, handle, rfl, -⟩ | ⟨_, _, _, -, hinst⟩ | ⟨-, hinst⟩ :=
      take_instances now o p
    · -- nothing is created
      cases hremoves (.create node spec seq) (hp ▸ List.mem_cons_self)
    · rw [hinst]
      exact Nat.le_trans (List.length_filter_le ..) hle
    · rwa [hinst]
  | proceeded f _ _ hnext ih =>
    obtain ⟨-, rfl⟩ := proceed_dispatching hnext
    refine ⟨fun x hx => ?_, ih.2⟩
    obtain ⟨i, -, rfl⟩ := List.mem_map.1 hx
    rfl

/-! ### What a pass counts -/

/-- What a pass counts along its way fits in 32 bits. -/
structure Fits (p : Pass) : Prop where
  /-- The stale instances are what the matched ones leave. -/
  matched : p.work.matched.length ≤ p.work.instances.length
  /-- As are the stale instances that are removed. -/
  stale : p.work.stale.length < UInt32.size
  plan : p.plan.length < UInt32.size
  eligible : ∀ n, p.report.eligible = some n → n < UInt32.size

/-- The number of elected nodes stays in the report. -/
theorem Course.eligible (h : Course p₀ p outs) : p.report.eligible = p₀.report.eligible := by
  induction h with
  | opened => rfl
  | @folded p _ o _ now _ _ ih =>
    refine Eq.trans ?_ ih
    obtain ⟨dispatch, result⟩ := o
    rw [take]
    cases result with
    | ok handle =>
      cases dispatch with
      | create node spec seq => rfl
      | remove target stale => cases stale <;> rfl
    | error e => cases e <;> cases dispatch <;> rfl
  | proceeded f _ _ hnext ih =>
    obtain ⟨-, rfl⟩ := proceed_dispatching hnext
    exact ih

/-- Plans and stale instances are few where they are few in the beginning. -/
theorem Course.fits_of (h : Course p₀ p outs) (hstale : p₀.work.stale.length < UInt32.size)
    (hplan : p₀.plan.length < UInt32.size)
    (heligible : ∀ n, p₀.report.eligible = some n → n < UInt32.size) : p.Fits := by
  have hlater : p.work.stale.length < UInt32.size := Nat.lt_of_le_of_lt h.length_stale_le hstale
  refine ⟨?_, hlater, ?_, h.eligible ▸ heligible⟩
  · have := p.work.length_matched_add_stale
    omega
  · clear hlater
    induction h with
    | opened => exact hplan
    | folded now _ _ ih =>
      rw [take_plan, List.length_tail]
      omega
    | @proceeded p _ _ f hcourse _ hnext ih =>
      obtain ⟨-, rfl⟩ := proceed_dispatching hnext
      rw [List.length_map]
      have hretired := (retirees_subperm f.selector p.work).length_le
      exact Nat.lt_of_le_of_lt (Nat.le_trans hretired hcourse.length_stale_le) hstale

theorem scale_lt (d : Deployment) : d.scale < UInt32.size := d.request.scale.toNat_lt_size

theorem planScale_report (d : Deployment) (r : Report) (eligible : Nat)
    (selection : Placement.Selection) :
    (planScale d r eligible selection).report.eligible = r.eligible := by
  cases selection <;> rfl

/-- What a pass elects is known, and what it warns of was asked for. -/
theorem eligible_of_start (h : start f d = .planned p selector) :
    (∀ n, p.report.eligible = some n → n ≤ f.registry.list.length) ∧
      ∀ w ∈ p.work.warnings, ∃ needed eligible shortfall,
        w = .underProvisioned needed eligible shortfall ∧ needed ≤ d.scale ∧
          eligible ≤ f.registry.list.length ∧ shortfall ≤ needed := by
  have hdemand := demand_opened f d
  have hnone := warnings_opened f d
  rw [start_eq] at h
  split at h
  · next hle =>
    simp only [Opening.planned.injEq] at h
    obtain ⟨rfl, -⟩ := h
    rw [planScale_report]
    refine ⟨fun n hn => (Option.some_ne_none _ hn.symm).elim, fun w hw => ?_⟩
    have hsilent := (planScale_work (opened f d) (openingReport f d) 0 _).2.resolve_right
      fun ⟨targets, heq⟩ => f.selector.select_ne_create [] (opened f d).matched hle targets heq
    rw [hsilent, hnone] at hw
    cases hw
  · next hlt =>
    have hpos : 0 < demand (opened f d) := by omega
    split at h
    · cases h
    · next election hel =>
      have helected := Placement.length_elected_le hel
      simp only [Opening.planned.injEq] at h
      obtain ⟨rfl, -⟩ := h
      rw [planScale_report]
      refine ⟨fun n hn => Option.some.inj hn ▸ helected, fun w hw => ?_⟩
      simp only [Placement.Selector.select_of_pos _ _ _ hpos, planScale, planCreate] at hw
      split at hw
      · rw [List.mem_singleton] at hw
        have hsum := (f.selector.length_add_shortfall election.nodes (opened f d).matched
          (min (demand (opened f d)).toNat Placement.maxDemand)).2
        exact ⟨_, _, _, hw, by omega, helected, Nat.le_add_left ..⟩
      · cases hw

/-- **What a pass counts fits**, on records and registries of 32 bits. -/
theorem Course.fits (hd : d.instances.length < UInt32.size)
    (hknown : f.registry.list.length < UInt32.size) (hstart : start f d = .planned p₀ selector)
    (h : Course p₀ p outs) : p.Fits := by
  have hscale := scale_lt d
  have hsum := d.length_matched_add_stale
  have hstale := length_stale_of_start hstart
  have hplan := length_plan_of_start hstart
  refine h.fits_of (by omega) (by omega) fun n hn => ?_
  exact Nat.lt_of_le_of_lt ((eligible_of_start hstart).1 n hn) hknown

/-- What a drain counts fits. -/
theorem Course.fits_drain {now : Nat} (hd : d.instances.length < UInt32.size)
    (h : Course (startDrain now d) p outs) : p.Fits := by
  have hsum := d.length_matched_add_stale
  have hstale : (startDrain now d).work.stale.length < UInt32.size :=
    Nat.lt_of_le_of_lt (Nat.le_add_left ..) (hsum ▸ hd)
  refine h.fits_of hstale ?_ fun n hn => (Option.some_ne_none _ hn.symm).elim
  rwa [startDrain, List.length_map]

/-- What a pass warns of fits. -/
theorem Course.warnings_fit (hknown : f.registry.list.length < UInt32.size)
    (hstart : start f d = .planned p₀ selector) (h : Course p₀ p outs) :
    ∀ w ∈ p.work.warnings, w.Fits := by
  have hphase := (start_planned hstart).2.2.1
  rw [(h.kept (by simp [hphase])).2.1]
  intro w hw
  obtain ⟨needed, eligible, shortfall, rfl, hneeded, heligible, hshort⟩ :=
    (eligible_of_start hstart).2 w hw
  exact ⟨Nat.lt_of_le_of_lt hneeded (scale_lt d), Nat.lt_of_le_of_lt heligible hknown, hshort⟩

/-- In the end a pass counts the instances there are. -/
theorem instances_of_finished (h : p.proceed f = .finished work report) :
    report.instances = p.work.instances.length := by
  obtain ⟨target, hfinish⟩ := proceed_finished h
  simp only [finish, Progress.finished.injEq] at hfinish
  obtain ⟨-, rfl⟩ := hfinish
  rfl

/-! ### One instance too many -/

/-- Failures leave the instances as they are. -/
theorem instances_foldAll_errors (now : Nat) {outcomes : List Outcome}
    (h : ∀ o ∈ outcomes, ∃ e, o.result = .error e) (p : Pass) :
    (p.foldAll now outcomes).work.instances = p.work.instances := by
  induction outcomes generalizing p with
  | nil => rfl
  | cons o outcomes ih =>
    obtain ⟨dispatch, result⟩ := o
    obtain ⟨e, rfl⟩ := h _ List.mem_cons_self
    obtain ⟨errorLog, heq⟩ := fold_error now p.work p.report dispatch e
    rw [foldAll_cons, ih fun o ho => h o (List.mem_cons_of_mem _ ho), take, heq]

/-- The plan may fail as a whole. -/
theorem Course.exists_failed (h : Course p₀ p outs) (now : Nat) :
    ∃ q outs', Course p₀ q outs' ∧ q.plan = [] ∧ q.phase = p.phase ∧
      q.work.instances = p.work.instances := by
  have hplan : (p.plan.map fun x => (⟨x, .error (.timeout 0)⟩ : Outcome)).map (·.dispatch) =
      p.plan := by
    rw [List.map_map]
    exact List.map_id _
  refine ⟨_, _, h.foldAll now _ [] (by rw [hplan, List.append_nil]), rfl, rfl, ?_⟩
  refine instances_foldAll_errors now (fun o ho => ?_) p
  obtain ⟨x, -, rfl⟩ := List.mem_map.1 ho
  exact ⟨_, rfl⟩

/-- A pass comes to an end with the instances there are, if every call that is left fails. -/
theorem Course.exists_end (h : Course p₀ p outs) (f : Fleet) :
    ∃ q outs' work report, Course p₀ q outs' ∧ q.plan = [] ∧
      q.proceed f = .finished work report ∧ report.instances = p.work.instances.length := by
  obtain ⟨q, outs₁, hq, hplan, -, hinst⟩ := h.exists_failed f.wall
  cases hnext : q.proceed f with
  | finished work report =>
    exact ⟨q, _, work, report, hq, hplan, hnext, by rw [instances_of_finished hnext, hinst]⟩
  | dispatching p' =>
    obtain ⟨-, hp'⟩ := proceed_dispatching hnext
    obtain ⟨q', outs₂, hq', hplan', hphase, hinst'⟩ :=
      (hq.proceeded f hplan hnext).exists_failed f.wall
    have hend : ∃ work report, q'.proceed f = .finished work report := by
      rw [hp'] at hphase
      simp [proceed, hphase, finish]
    obtain ⟨work, report, hend⟩ := hend
    have hsame : q'.work.instances = p.work.instances := by
      rw [hinst', hp']
      exact hinst
    exact ⟨q', _, work, report, hq', hplan', hend, by rw [instances_of_finished hend, hsame]⟩

/-- A record of `n` stale instances on one node, of which one is wanted. -/
def crowded (n : Nat) : Deployment where
  id := "a"
  request := { deploymentId := some "a", container := { image := "web" }, scale := 1 }
  specFingerprint := "new"
  instances := (List.range n).map fun k => ⟨"a-" ++ Nat.repr k, "n", "h", "old", 0, k⟩
  createdAt := 0
  nextSeq := n
  errorLogCapacity := 1

/-- **The bound on the instances is reached**: a pass may create what is missing and remove nothing.
So the instances of a record with 32 bits of them may come to be too many. -/
theorem exists_overfull (n : Nat) :
    (crowded n).instances.length = n ∧ (crowded n).scale = 1 ∧
    ∃ p₀ selector p outs work report, start lone (crowded n) = .planned p₀ selector ∧
      Course p₀ p outs ∧ p.plan = [] ∧ p.proceed lone = .finished work report ∧
      report.instances = n + 1 := by
  have hknown : ∀ i ∈ (crowded n).instances, lone.registry.Knows i.nodeId := by
    intro i hi
    obtain ⟨k, -, rfl⟩ := List.mem_map.1 hi
    exact (by decide : (lone.registry.lookup "n").isSome)
  have hkept := dropLost_instances_eq hknown
  have hmatched : (dropLost lone.registry (crowded n)).matched = [] := by
    refine List.filter_eq_nil_iff.2 fun i hi => ?_
    rw [hkept] at hi
    obtain ⟨k, -, rfl⟩ := List.mem_map.1 hi
    exact (by decide : ¬ ("old" == "new") = true)
  have hlength : (crowded n).instances.length = n := by simp [crowded]
  have hopen : ∃ p₀ selector, start lone (crowded n) = .planned p₀ selector := by
    have hdemand := demand_opened lone (crowded n)
    rw [start_eq, hdemand, hmatched, (opened_copyOf lone (crowded n)).request]
    exact ⟨_, _, rfl⟩
  obtain ⟨p₀, selector, hstart⟩ := hopen
  obtain ⟨-, hinst, -, hplan, -⟩ := start_planned hstart
  cases hplan with
  | remove victims hle =>
    rw [hmatched] at hle
    cases hle
  | create election targets _ hel ht hplan _ =>
    rw [hmatched] at ht
    have htargets : targets.length = 1 := by
      have hone : (Placement.elect (crowded 0).request lone.tree lone.registry.list).toOption.map
          (fun e => (lone.selector.selectTargets e.nodes [] 1).1.nodes.length) = some 1 := by
        decide +kernel
      rw [show (crowded 0).request = (crowded n).request from rfl, hel] at hone
      rw [ht]
      exact Option.some.inj hone
    -- the creation succeeds, and all removals that follow fail
    have hoks : AllOk (creations (crowded n).request.container (crowded n).nextSeq targets)
        ((creations (crowded n).request.container (crowded n).nextSeq targets).map
          (⟨·, .ok "h"⟩)) := by
      refine ⟨by rw [List.map_map]; exact List.map_id _, fun o ho => ?_⟩
      obtain ⟨x, -, rfl⟩ := List.mem_map.1 ho
      exact ⟨"h", rfl⟩
    obtain ⟨created, hnodes, -, hwork⟩ := foldAll_creations 0 hoks p₀
    have hopened : Course p₀ p₀ [] := .opened
    have hcourse := hopened.foldAll 0 _ [] (by rw [List.append_nil, hoks.1, hplan])
    obtain ⟨q, outs, work, report, hq, hend, hfinished, hcount⟩ := hcourse.exists_end lone
    refine ⟨hlength, rfl, p₀, selector, q, outs, work, report, hstart, hq, hend, hfinished, ?_⟩
    have hcreated := congrArg List.length hnodes
    rw [List.length_map, List.length_map, htargets] at hcreated
    rw [hcount, hwork, List.length_append, hinst, hkept, hlength, hcreated]

end Pass

end FleetControl
