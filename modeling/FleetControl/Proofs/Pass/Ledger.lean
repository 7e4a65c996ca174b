import FleetControl.Proofs.Lists
import FleetControl.Proofs.Pass.Bounds
import Mathlib.Data.List.DropRight

/-!
# Reports balance

The report of a pass counts what becomes of its dispatches, and its working copy keeps the instances
and the failures. The two are changed side by side, an outcome at a time (`Pass.Taken`), in up to
two plans; `Pass.Ledger` says how they go together at every point of a course, and `Report.Balances`
what comes out in the end.

* `Pass.Course.ledger` : along every course the report counts each outcome once, the failures noted
  are those of the calls that failed, and the instances are those there were, without the ones
  removed, and behind them the ones created. An instance that a pass created it does not remove:
  what is retired is stale.
* `Pass.opening_of_start` : the books are blank in the beginning, and a pass that cannot place all
  that is missing says so in its report as in its warning.
* `Pass.Begins.balances` : **the report of every pass and every drain balances**, whatever the
  outcomes are and wherever it is cancelled.
-/

namespace FleetControl

namespace Outcome

/-- The call was not made, because the pass was cancelled. -/
def isSkipped (o : Outcome) : Bool := o.result matches .error .cancelled

/-- The call was made and failed. -/
def isFailed (o : Outcome) : Bool :=
  match o.result with
  | .ok _ => false
  | .error .cancelled => false
  | .error _ => true

end Outcome

/-- The failure is noted of an outcome: that of a call that was made. -/
structure Failure.Notes (x : Failure) (o : Outcome) : Prop where
  nodeId : x.nodeId = o.dispatch.nodeId
  kind : x.kind = o.dispatch.kind
  instanceId : x.instanceId = o.dispatch.instanceId
  error : ∃ e, o.result = .error e ∧ e ≠ .cancelled ∧ x.error = e.message

/-- What is missing is planned to be created or is the shortfall, and of a shortfall is warned. -/
structure Report.Warns (work : Deployment) (report : Report) (planned : List Dispatch)
    (missing : Nat) : Prop where
  creations : planned.countP Dispatch.isCreate + report.shortfall = missing
  silent : report.shortfall = 0 → work.warnings = []
  warned : 0 < report.shortfall → ∃ eligible, report.eligible = some eligible ∧
    work.warnings = [.underProvisioned missing eligible report.shortfall]

namespace Deployment

/-- Note failures, one after the other. -/
def recordFailures (d : Deployment) (failures : List Failure) : Deployment :=
  failures.foldl recordFailure d

theorem recordFailures_append (d : Deployment) (xs ys : List Failure) :
    d.recordFailures (xs ++ ys) = (d.recordFailures xs).recordFailures ys := List.foldl_append

theorem recordFailures_concat (d : Deployment) (failures : List Failure) (x : Failure) :
    d.recordFailures (failures ++ [x]) = (d.recordFailures failures).recordFailure x :=
  d.recordFailures_append failures [x]

theorem errorLogCapacity_recordFailures (d : Deployment) (failures : List Failure) :
    (d.recordFailures failures).errorLogCapacity = d.errorLogCapacity := by
  induction failures using List.reverseRecOn with
  | nil => rfl
  | append_singleton failures x ih => rw [recordFailures_concat, recordFailure, ih]

/-- A failure that is noted comes last, and only the oldest ones go. -/
theorem errorLog_recordFailure (d : Deployment) (x : Failure) :
    (d.recordFailure x).errorLog = (d.errorLog ++ [x]).rtake (max d.errorLogCapacity 1) := by
  rw [recordFailure]
  rcases hroom : d.errorLogCapacity with _ | room
  · simp [List.rtake]
  · rw [max_eq_left (Nat.succ_pos room), List.rtake_concat_succ, List.rtake, Nat.add_sub_add_right]

/-- Of all that there was and was noted, the log keeps the end that there is room for. -/
theorem errorLog_recordFailures_of_ne_nil (d : Deployment) {failures : List Failure}
    (hne : failures ≠ []) : (d.recordFailures failures).errorLog =
      (d.errorLog ++ failures).rtake (max d.errorLogCapacity 1) := by
  induction failures using List.reverseRecOn with
  | nil => exact absurd rfl hne
  | append_singleton failures x ih =>
    rw [recordFailures_concat, errorLog_recordFailure, errorLogCapacity_recordFailures,
      ← List.append_assoc]
    by_cases hnil : failures = []
    · rw [hnil, List.append_nil]
      rfl
    · -- what went before goes also when all is noted at once
      obtain ⟨room, hroom⟩ := Nat.exists_eq_add_of_le' (Nat.le_max_right d.errorLogCapacity 1)
      rw [ih hnil, hroom, List.rtake_concat_succ, List.rtake_concat_succ, List.rtake, List.rtake,
        List.rtake, List.drop_drop, List.length_drop]
      congr 2
      omega

/-- What is noted depends on the log and its capacity alone. -/
theorem errorLog_recordFailures {d d' : Deployment} (hlog : d'.errorLog = d.errorLog)
    (hcapacity : d'.errorLogCapacity = d.errorLogCapacity) (failures : List Failure) :
    (d'.recordFailures failures).errorLog = (d.recordFailures failures).errorLog := by
  by_cases hnil : failures = []
  · rw [hnil]
    exact hlog
  · rw [errorLog_recordFailures_of_ne_nil _ hnil, errorLog_recordFailures_of_ne_nil _ hnil, hlog,
      hcapacity]

end Deployment

namespace Pass

variable {f : Fleet} {d work : Deployment} {p₀ p q : Pass} {selector : Placement.Selector}
  {outs : List Outcome} {report : Report} {o : Outcome} {now : Nat}

/-! ### One outcome -/

/-- What taking an outcome makes of a pass, record and report side by side. -/
inductive Taken (now : Nat) (p : Pass) : Outcome → Pass → Prop
  | created (node : Node) (spec : ContainerSpec) (seq : Nat) (handle : String) :
      Taken now p ⟨.create node spec seq, .ok handle⟩ { p with
        work := { p.work with instances := p.work.instances ++
          [⟨p.work.instanceId seq, node.id, handle, p.work.specFingerprint, now, seq⟩] }
        report := { p.report with created := p.report.created + 1 }
        plan := p.plan.tail }
  | removed {report : Report} (target : Instance) (stale : Bool) (handle : String) :
      (∃ removed staleRemoved, report = { p.report with removed, staleRemoved } ∧
        removed + staleRemoved = p.report.removed + p.report.staleRemoved + 1) →
      Taken now p ⟨.remove target stale, .ok handle⟩ { p with
        work := { p.work with instances := p.work.instances.filter (·.id != target.id) }
        report
        plan := p.plan.tail }
  | skipped (x : Dispatch) : Taken now p ⟨x, .error .cancelled⟩ { p with
      report := { p.report with cancelled := true, skipped := p.report.skipped + 1 }
      plan := p.plan.tail }
  | failed (x : Dispatch) {e : DispatchError} {failure : Failure} : e ≠ .cancelled →
      failure.Notes ⟨x, .error e⟩ → Taken now p ⟨x, .error e⟩ { p with
        work := p.work.recordFailure failure
        report := { p.report with failed := p.report.failed + 1 }
        plan := p.plan.tail }

theorem taken (now : Nat) (o : Outcome) (p : Pass) : Taken now p o (p.take now o) := by
  obtain ⟨dispatch, result⟩ := o
  cases result with
  | ok handle =>
    cases dispatch with
    | create node spec seq => exact .created node spec seq handle
    | remove target stale =>
      cases stale with
      | true => exact .removed target true handle ⟨_, _, rfl, by omega⟩
      | false => exact .removed target false handle ⟨_, _, rfl, by omega⟩
  | error e =>
    have hnotes (hmade : e ≠ .cancelled) :
        Failure.Notes ⟨dispatch.nodeId, dispatch.kind, dispatch.instanceId, e.message, now⟩
          ⟨dispatch, .error e⟩ := ⟨rfl, rfl, rfl, e, rfl, hmade, rfl⟩
    cases e with
    | cancelled => cases dispatch <;> exact .skipped _
    | engine error =>
      have : Taken now p ⟨dispatch, .error _⟩ _ := .failed dispatch (by simp) (hnotes (by simp))
      cases dispatch <;> exact this
    | timeout ms =>
      have : Taken now p ⟨dispatch, .error _⟩ _ := .failed dispatch (by simp) (hnotes (by simp))
      cases dispatch <;> exact this

theorem Taken.counts (h : Taken now p o q) :
    q.report.dispatches + q.report.skipped = p.report.dispatches + p.report.skipped + 1 := by
  cases h with
  | removed target stale handle hreport =>
    obtain ⟨removed, staleRemoved, rfl, hcount⟩ := hreport
    simp only [Report.dispatches]
    omega
  | _ =>
    simp only [Report.dispatches]
    omega

theorem Taken.skips (h : Taken now p o q) :
    q.report.skipped = p.report.skipped + if o.isSkipped then 1 else 0 := by
  cases h with
  | created _ _ _ _ => rfl
  | removed target stale handle hreport =>
    obtain ⟨removed, staleRemoved, rfl, -⟩ := hreport
    rfl
  | skipped x => rfl
  | @failed x e failure hmade _ => cases e <;> first | rfl | exact absurd rfl hmade

theorem Taken.cancels (h : Taken now p o q)
    (hp : p.report.cancelled = true ↔ 0 < p.report.skipped) :
    q.report.cancelled = true ↔ 0 < q.report.skipped := by
  cases h with
  | removed target stale handle hreport =>
    obtain ⟨removed, staleRemoved, rfl, -⟩ := hreport
    exact hp
  | skipped x => exact iff_of_true rfl (Nat.succ_pos _)
  | _ => exact hp

theorem Taken.capacity (h : Taken now p o q) :
    q.work.errorLogCapacity = p.work.errorLogCapacity := by
  cases h <;> rfl

/-- A call that was made and failed is noted, and nothing else. -/
theorem Taken.notes (h : Taken now p o q) : ∃ noted,
    List.Forall₂ Failure.Notes noted ([o].filter Outcome.isFailed) ∧
      q.report.failed = p.report.failed + noted.length ∧
      q.work.errorLog = (p.work.recordFailures noted).errorLog := by
  cases h with
  | created node spec seq handle => exact ⟨[], .nil, rfl, rfl⟩
  | removed target stale handle hreport =>
    obtain ⟨removed, staleRemoved, rfl, -⟩ := hreport
    exact ⟨[], .nil, rfl, rfl⟩
  | skipped x => exact ⟨[], .nil, rfl, rfl⟩
  | @failed x e failure hmade hnotes =>
    have hfailed : Outcome.isFailed ⟨x, .error e⟩ = true := by
      cases e <;> first | rfl | exact absurd rfl hmade
    rw [List.filter_singleton, hfailed]
    exact ⟨[failure], .cons hnotes .nil, rfl, rfl⟩

/-! ### The books along a course -/

/-- The instances of a pass are those it began with, without the ones gone, and the ones created. -/
structure Shares (p₀ p : Pass) (gone created : List Instance) : Prop where
  gone_nodup : gone.Nodup
  gone_subset : gone ⊆ p₀.work.instances
  gone_length : gone.length = p.report.removed + p.report.staleRemoved
  created_length : created.length = p.report.created
  created_matched : ∀ i ∈ created, p.work.isMatched i = true
  instances : p.work.instances = p₀.work.instances.filter (· ∉ gone) ++ created
  planned : ∀ t ∈ p.targets, t ∈ p₀.work.instances ∧ t ∉ gone

/-- What the report counts, and the record keeps, of the outcomes so far. -/
structure Ledger (p₀ p : Pass) (outs : List Outcome) : Prop where
  made : p.report.dispatches + p.report.skipped = outs.length
  skipped : p.report.skipped = outs.countP Outcome.isSkipped
  cancelled : p.report.cancelled = true ↔ 0 < p.report.skipped
  capacity : p.work.errorLogCapacity = p₀.work.errorLogCapacity
  failures : ∃ failures, List.Forall₂ Failure.Notes failures (outs.filter Outcome.isFailed) ∧
    failures.length = p.report.failed ∧
    p.work.errorLog = (p₀.work.recordFailures failures).errorLog
  shares : ∃ gone created, Shares p₀ p gone created

/-- Nothing is counted yet. -/
structure Blank (r : Report) : Prop where
  dispatches : r.dispatches = 0
  skipped : r.skipped = 0
  cancelled : r.cancelled = false

theorem Sound.ledger (h : p₀.Sound) (hblank : Blank p₀.report) : Ledger p₀ p₀ [] := by
  have hdispatches := hblank.dispatches
  rw [Report.dispatches] at hdispatches
  refine ⟨?_, hblank.skipped, ?_, rfl, ⟨[], .nil, by simp; omega, rfl⟩, [], [], .nil, ?_, ?_, ?_,
    ?_, ?_, fun t ht => ⟨h.targets_subset ht, List.not_mem_nil⟩⟩
  · rw [hblank.dispatches, hblank.skipped]
    rfl
  · rw [hblank.cancelled, hblank.skipped]
    simp
  · exact List.nil_subset _
  · rw [List.length_nil]
    omega
  · rw [List.length_nil]
    omega
  · exact fun i hi => absurd hi List.not_mem_nil
  · simp

section

variable {gone created : List Instance} {rest : List Dispatch}

/-- What is left of the targets when the first dispatch of the plan is over. -/
theorem targets_of_tail (hq : q.plan = p.plan.tail) : q.targets ⊆ p.targets := by
  rw [targets, targets, hq]
  exact ((List.tail_sublist p.plan).filterMap _).subset

theorem Shares.join (h : Shares p₀ p gone created) {i : Instance}
    (hi : p.work.isMatched i = true)
    (hq : q = { p with
      work := { p.work with instances := p.work.instances ++ [i] }
      report := { p.report with created := p.report.created + 1 }
      plan := p.plan.tail }) : Shares p₀ q gone (created ++ [i]) := by
  subst hq
  refine ⟨h.gone_nodup, h.gone_subset, h.gone_length, ?_, fun j hj => ?_, ?_, fun t ht =>
    h.planned t (targets_of_tail rfl ht)⟩
  · rw [List.length_append, h.created_length]
    rfl
  · rcases List.mem_append.1 hj with hj | hj
    · exact h.created_matched j hj
    · rw [List.mem_singleton.1 hj]
      exact hi
  · show p.work.instances ++ [i] = _
    rw [h.instances, List.append_assoc]

/-- An instance that is removed is one of those there were. -/
theorem Shares.leave (h : Shares p₀ p gone created) (hsound : p.Sound) {target : Instance}
    {stale : Bool} (hplan : p.plan = .remove target stale :: rest) (report : Report)
    (hcreated : report.created = p.report.created)
    (hcount : report.removed + report.staleRemoved =
      p.report.removed + p.report.staleRemoved + 1)
    (hq : q = { p with
      work := { p.work with instances := p.work.instances.filter (·.id != target.id) }
      report
      plan := p.plan.tail }) : Shares p₀ q (gone ++ [target]) created := by
  subst hq
  have htargets := hsound.targets_nodup
  have hmem : target ∈ p.targets := by
    rw [targets, hplan]
    exact List.mem_cons_self
  obtain ⟨hthere, hnotgone⟩ := h.planned target hmem
  have hinstances := hsound.targets_subset hmem
  have hids := hsound.distinctIds.nodup
  -- the target is not one of the instances created, because no instance is listed twice
  have hkept : target ∈ p₀.work.instances.filter (· ∉ gone) :=
    List.mem_filter.2 ⟨hthere, by simpa using hnotgone⟩
  have hnodup := List.Nodup.of_map _ hids
  rw [h.instances] at hnodup
  have hnotcreated : ∀ i ∈ created, (i != target) = true := fun i hi =>
    bne_iff_ne.2 fun heq => (List.nodup_append.1 hnodup).2.2 target hkept i hi heq.symm
  refine ⟨?_, ?_, ?_, ?_, h.created_matched, ?_, ?_⟩
  · rw [List.nodup_append]
    refine ⟨h.gone_nodup, List.nodup_singleton _, fun a ha b hb hab => hnotgone ?_⟩
    rw [← List.mem_singleton.1 hb, ← hab]
    exact ha
  · refine List.append_subset.2 ⟨h.gone_subset, ?_⟩
    simpa using hthere
  · rw [List.length_append, h.gone_length, hcount]
    rfl
  · rw [h.created_length, hcreated]
  · show p.work.instances.filter (·.id != target.id) = _
    rw [hsound.filter_id_ne hinstances, (List.Nodup.of_map _ hids).erase_eq_filter, h.instances,
      List.filter_append, List.filter_eq_self.2 hnotcreated, Lists.filter_ne_eq,
        Lists.filter_notMem_append]
  · intro t ht
    obtain ⟨hthere', hnotgone'⟩ := h.planned t (targets_of_tail rfl ht)
    refine ⟨hthere', fun hgone => ?_⟩
    rcases List.mem_append.1 hgone with hgone | hgone
    · exact hnotgone' hgone
    · -- the target is not planned for removal twice
      rw [targets, hplan] at htargets
      rw [targets] at ht
      simp only [hplan, List.tail_cons] at ht
      rw [List.filterMap_cons_some (Dispatch.target?_remove ..), List.nodup_cons] at htargets
      exact htargets.1 (List.mem_singleton.1 hgone ▸ ht)

/-- An outcome that leaves the instances as they are. -/
theorem Shares.kept (h : Shares p₀ p gone created) (hq : q.plan = p.plan.tail)
    (hwork : q.work.instances = p.work.instances)
    (hprint : q.work.specFingerprint = p.work.specFingerprint)
    (hremoved : q.report.removed + q.report.staleRemoved =
      p.report.removed + p.report.staleRemoved)
    (hcreated : q.report.created = p.report.created) : Shares p₀ q gone created where
  gone_nodup := h.gone_nodup
  gone_subset := h.gone_subset
  gone_length := hremoved ▸ h.gone_length
  created_length := hcreated ▸ h.created_length
  created_matched := fun i hi => by
    rw [Deployment.isMatched, hprint]
    exact h.created_matched i hi
  instances := hwork.trans h.instances
  planned := fun t ht => h.planned t (targets_of_tail hq ht)

/-- Stale instances are none of those created. -/
theorem Shares.proceeded (h : Shares p₀ p gone created) (f : Fleet) : Shares p₀ { p with
      phase := .retire
      plan := (retirees f.selector p.work).map (Dispatch.remove · true) } gone created := by
  refine ⟨h.gone_nodup, h.gone_subset, h.gone_length, h.created_length, h.created_matched,
    h.instances, fun t ht => ?_⟩
  rw [targets, targets_map_remove] at ht
  obtain ⟨hmem, hstale⟩ := mem_retirees ht
  rw [h.instances] at hmem
  rcases List.mem_append.1 hmem with hkept | hcreated
  · obtain ⟨hthere, hnotgone⟩ := List.mem_filter.1 hkept
    exact ⟨hthere, by simpa using hnotgone⟩
  · rw [h.created_matched t hcreated] at hstale
    cases hstale

theorem Shares.take (h : Shares p₀ p gone created) (hsound : p.Sound)
    (hplan : p.plan = o.dispatch :: rest) (htaken : Taken now p o q) :
    ∃ gone created, Shares p₀ q gone created := by
  cases htaken with
  | created node spec seq handle => exact ⟨gone, _, h.join (beq_self_eq_true _) rfl⟩
  | removed target stale handle hreport =>
    obtain ⟨removed, staleRemoved, rfl, hcount⟩ := hreport
    exact ⟨_, created, h.leave hsound hplan { p.report with removed, staleRemoved } rfl hcount rfl⟩
  | skipped x => exact ⟨gone, created, h.kept rfl rfl rfl rfl rfl⟩
  | failed x _ _ => exact ⟨gone, created, h.kept rfl rfl rfl rfl rfl⟩

end

/-- **One outcome is counted once, and noted if it failed.** -/
theorem Ledger.take {rest : List Dispatch} (h : Ledger p₀ p outs) (hsound : p.Sound)
    (hplan : p.plan = o.dispatch :: rest) (htaken : Taken now p o q) :
    Ledger p₀ q (outs ++ [o]) where
  made := by rw [htaken.counts, h.made, List.length_append, List.length_singleton]
  skipped := by rw [htaken.skips, h.skipped, List.countP_append, List.countP_singleton]
  cancelled := htaken.cancels h.cancelled
  capacity := htaken.capacity.trans h.capacity
  failures := by
    obtain ⟨failures, hnotes, hfailed, hlog⟩ := h.failures
    obtain ⟨noted, hnoted, hcount, hnew⟩ := htaken.notes
    refine ⟨failures ++ noted, ?_, ?_, ?_⟩
    · rw [List.filter_append]
      exact List.rel_append hnotes hnoted
    · rw [List.length_append, hfailed, hcount]
    · rw [hnew, Deployment.recordFailures_append]
      exact Deployment.errorLog_recordFailures hlog
        (h.capacity.trans (Deployment.errorLogCapacity_recordFailures ..).symm) noted
  shares := by
    obtain ⟨gone, created, hshares⟩ := h.shares
    exact hshares.take hsound hplan htaken

/-- **Along every course the report and the record go together.** -/
theorem Course.ledger (h : Course p₀ p outs) (hsound : p₀.Sound) (hblank : Blank p₀.report) :
    Ledger p₀ p outs := by
  induction h with
  | opened => exact hsound.ledger hblank
  | folded now hcourse hplan ih => exact ih.take (hcourse.sound hsound) hplan (taken ..)
  | proceeded f _ _ hnext ih =>
    obtain ⟨-, rfl⟩ := proceed_dispatching hnext
    obtain ⟨gone, created, hshares⟩ := ih.shares
    exact ⟨ih.made, ih.skipped, ih.cancelled, ih.capacity, ih.failures, gone, created,
      hshares.proceeded f⟩

/-! ### Beginnings -/

/-- A pass or drain of the record begins: some instances are lost, and nothing is counted yet. -/
structure Begins (d : Deployment) (p : Pass) (lost : List Instance) : Prop where
  sound : p.Sound
  blank : Blank p.report
  errorLog : p.work.errorLog = d.errorLog
  capacity : p.work.errorLogCapacity = d.errorLogCapacity
  nodup : d.instances.Nodup
  lost_nodup : lost.Nodup
  lost_subset : lost ⊆ d.instances
  lost_length : lost.length = p.report.lost
  instances : p.work.instances = d.instances.filter (· ∉ lost)
  plan_le : p.plan.length ≤ max d.instances.length d.scale

/-- What the first plan leaves of what is missing is the shortfall. -/
def Warns (p : Pass) (missing : Nat) : Prop := p.report.Warns p.work p.plan missing

theorem warns_planCreate (d : Deployment) (r : Report) (eligible : Nat)
    (targets : Placement.Targets) :
    (planCreate d { r with eligible := some eligible } eligible targets).Warns
      (targets.nodes.length + targets.shortfall) where
  creations := by
    rw [planCreate, countP_isCreate_creations]
  silent hzero := by
    have hwhole : targets.isPartial = false := decide_eq_false (Nat.not_lt.2 (Nat.le_of_eq hzero))
    rw [planCreate, hwhole]
    rfl
  warned hshort := by
    have hpartial : targets.isPartial = true := decide_eq_true hshort
    refine ⟨eligible, rfl, ?_⟩
    rw [planCreate, hpartial]
    rfl

/-- The books of a pass that begins, and what it says of its election. -/
theorem opening_of_start (h : start f d = .planned p selector) :
    (∃ eligible shortfall, p.report = { openingReport f d with eligible, shortfall }) ∧
      p.work.errorLog = d.errorLog ∧ p.work.errorLogCapacity = d.errorLogCapacity ∧
      p.Warns (d.scale - (dropLost f.registry d).matched.length) := by
  have hdemand := demand_opened f d
  have hnone := warnings_opened f d
  obtain ⟨state, hopened⟩ := opened_eq f d
  have hlog : (opened f d).errorLog = d.errorLog ∧
      (opened f d).errorLogCapacity = d.errorLogCapacity := by
    rw [hopened]
    exact ⟨rfl, rfl⟩
  have hsilent : (openingReport f d).shortfall = 0 := rfl
  rw [start_eq] at h
  split at h
  · next hle =>
    simp only [Opening.planned.injEq] at h
    obtain ⟨rfl, -⟩ := h
    have hmissing : d.scale - (dropLost f.registry d).matched.length = 0 := by omega
    rw [hmissing]
    by_cases hzero : demand (opened f d) = 0
    · rw [hzero]
      exact ⟨⟨none, 0, rfl⟩, hlog.1, hlog.2, rfl, fun _ => hnone,
        fun hpos => absurd hpos (Nat.lt_irrefl 0)⟩
    · rw [Placement.Selector.select_of_neg _ _ _ (show demand (opened f d) < 0 by omega)]
      refine ⟨⟨none, 0, rfl⟩, hlog.1, hlog.2, ?_, fun _ => hnone,
        fun hpos => absurd hpos (Nat.lt_irrefl 0)⟩
      rw [planScale, countP_isCreate_map_remove]
      rfl
  · next hlt =>
    have hpos : 0 < demand (opened f d) := by omega
    have hmin : min (demand (opened f d)).toNat Placement.maxDemand =
        d.scale - (dropLost f.registry d).matched.length := by
      have := scale_le_maxDemand d
      omega
    split at h
    · cases h
    · next election hel =>
      simp only [Opening.planned.injEq] at h
      obtain ⟨rfl, -⟩ := h
      have hsum := (f.selector.length_add_shortfall election.nodes (opened f d).matched
        (d.scale - (dropLost f.registry d).matched.length)).2
      have hwarns := warns_planCreate { opened f d with targetRegions := election.targetRegions }
        (openingReport f d) election.nodes.length
        (f.selector.selectTargets election.nodes (opened f d).matched
          (d.scale - (dropLost f.registry d).matched.length)).1
      rw [hsum] at hwarns
      rw [Placement.Selector.select_of_pos _ _ _ hpos, hmin]
      exact ⟨⟨_, _, rfl⟩, hlog.1, hlog.2, hwarns⟩

theorem begins_of_start (hd : d.DistinctIds) (h : start f d = .planned p selector) :
    Begins d p (d.instances.filter fun i => !(f.registry.lookup i.nodeId).isSome) := by
  obtain ⟨⟨eligible, shortfall, hreport⟩, hlog, hcapacity, -⟩ := opening_of_start h
  have hinst := (start_planned h).2.1
  have hknown : (dropLost f.registry d).instances =
      d.instances.filter fun i => (f.registry.lookup i.nodeId).isSome := rfl
  refine ⟨sound_of_start hd h, ?_, hlog, hcapacity, List.Nodup.of_map _ hd.nodup,
    (List.Nodup.of_map _ hd.nodup).sublist List.filter_sublist, List.filter_sublist.subset, ?_, ?_,
    length_plan_of_start h⟩
  · rw [hreport]
    exact ⟨rfl, rfl, rfl⟩
  · rw [hreport]
    show _ = d.instances.length - (dropLost f.registry d).instances.length
    have hsplit := List.length_eq_countP_add_countP
      (fun i : Instance => (f.registry.lookup i.nodeId).isSome) (l := d.instances)
    rw [hknown, ← List.countP_eq_length_filter, ← List.countP_eq_length_filter]
    simp only [Bool.not_eq_true, Bool.decide_eq_false] at hsplit
    omega
  · rw [hinst, hknown]
    refine List.filter_congr fun i hi => ?_
    rw [Bool.eq_iff_iff]
    simp [hi, Option.isSome_iff_ne_none]

theorem begins_startDrain (now : Nat) (hd : d.DistinctIds) : Begins d (startDrain now d) [] where
  sound := sound_startDrain now hd
  blank := ⟨rfl, rfl, rfl⟩
  errorLog := rfl
  capacity := rfl
  nodup := List.Nodup.of_map _ hd.nodup
  lost_nodup := .nil
  lost_subset := List.nil_subset _
  lost_length := rfl
  instances := by simp [startDrain]
  plan_le := by
    rw [startDrain, List.length_map]
    exact Nat.le_max_left ..

/-! ### Endings -/

/-- What was lost, elected and left over is said in the beginning. -/
theorem Course.constants (h : Course p₀ p outs) :
    p.report.lost = p₀.report.lost ∧ p.report.shortfall = p₀.report.shortfall := by
  induction h with
  | opened => exact ⟨rfl, rfl⟩
  | @folded p _ o _ now _ _ ih =>
    have htaken := taken now o p
    generalize p.take now o = q at htaken
    cases htaken with
    | created _ _ _ _ => exact ih
    | removed _ _ _ hreport =>
      obtain ⟨_, _, rfl, -⟩ := hreport
      exact ih
    | skipped _ => exact ih
    | failed _ _ _ => exact ih
  | proceeded f _ _ hnext ih =>
    obtain ⟨-, rfl⟩ := proceed_dispatching hnext
    exact ih

/-- All creations are planned in the beginning. -/
theorem Course.countP_creates (h : Course p₀ p outs) :
    outs.countP (·.dispatch.isCreate) + p.creates = p₀.creates := by
  induction h with
  | opened => exact Nat.zero_add _
  | @folded p _ o rest now _ hplan ih =>
    rw [creates, hplan, List.countP_cons] at ih
    rw [List.countP_append, List.countP_singleton, creates, take_plan, hplan, List.tail_cons]
    omega
  | @proceeded p _ _ f _ hplan hnext ih =>
    obtain ⟨-, rfl⟩ := proceed_dispatching hnext
    rw [creates, hplan, List.countP_nil] at ih
    rw [creates, countP_isCreate_map_remove]
    exact ih

/-- The second plan is no longer than the stale instances there were. -/
theorem Course.length_planned_le (h : Course p₀ p outs) :
    (p.phase = .scale → outs.length + p.plan.length = p₀.plan.length) ∧
      outs.length + p.plan.length ≤ p₀.plan.length + p₀.work.stale.length := by
  induction h with
  | opened => simp
  | @folded p _ o rest now _ hplan ih =>
    have hlength : (p.take now o).plan.length + 1 = p.plan.length := by
      rw [take_plan, hplan]
      rfl
    rw [List.length_append, List.length_singleton]
    exact ⟨fun hphase => by have := ih.1 hphase; omega, by omega⟩
  | @proceeded p _ outs f hcourse hplan hnext ih =>
    obtain ⟨hphase, rfl⟩ := proceed_dispatching hnext
    have hall := ih.1 hphase
    have hstale := hcourse.length_stale_le
    have hretired := (retirees_subperm f.selector p.work).length_le
    rw [hplan, List.length_nil] at hall
    refine ⟨by rintro ⟨⟩, ?_⟩
    rw [List.length_map]
    omega

/-- In the end the report is closed. -/
theorem report_of_finished (h : p.proceed f = .finished work report) :
    work.errorLog = p.work.errorLog ∧ work.instances = p.work.instances ∧
      work.warnings = p.work.warnings ∧ ∃ state finishedAt, report = { p.report with
        instances := p.work.instances.length
        state
        finishedAt } := by
  obtain ⟨target, hfinish⟩ := proceed_finished h
  simp only [finish, Progress.finished.injEq] at hfinish
  obtain ⟨rfl, rfl⟩ := hfinish
  exact ⟨rfl, rfl, rfl, _, _, rfl⟩

end Pass

/-- What is promised of the report of a pass or drain that found the record `d` and left `work`, with
the given outcomes of what it planned, and with so many calls to the container engine. -/
structure Report.Balances (d work : Deployment) (report : Report) (planned : List Dispatch)
    (outs : List Outcome) (calls : Nat) : Prop where
  /-- The instances after are those before, less what was lost and removed, and what was created. -/
  instances : (report.instances : Int) =
    d.instances.length - report.lost + report.created - report.removed - report.staleRemoved
  counted : report.instances = work.instances.length
  /-- Every call that was made is counted, and no other. -/
  calls : report.dispatches = calls
  /-- Every dispatch that was planned is made or skipped. -/
  complete : report.dispatches + report.skipped = planned.length
  outcomes : outs.map (·.dispatch) = planned
  skipped : report.skipped = outs.countP Outcome.isSkipped
  cancelled : report.cancelled = true ↔ 0 < report.skipped
  /-- One failure is noted for each call that failed, in order, and none for what was cancelled. They
  come behind those that there were, and of all of them the log keeps the last. -/
  failures : ∃ failures, List.Forall₂ Failure.Notes failures (outs.filter Outcome.isFailed) ∧
    failures.length = report.failed ∧ (failures = [] → work.errorLog = d.errorLog) ∧
    (failures ≠ [] → work.errorLog = (d.errorLog ++ failures).rtake (max d.errorLogCapacity 1))
  /-- The instances that stay keep their order, and behind them are the ones created. -/
  stays : ∃ lost gone created, (lost ++ gone).Nodup ∧ lost ++ gone ⊆ d.instances ∧
    lost.length = report.lost ∧ gone.length = report.removed + report.staleRemoved ∧
    created.length = report.created ∧
    work.instances = d.instances.filter (· ∉ lost ++ gone) ++ created
  /-- The counters are no larger than this. -/
  bounded : planned.length ≤ max d.instances.length d.scale + d.instances.length

namespace Pass

variable {f : Fleet} {d work : Deployment} {p₀ p : Pass} {selector : Placement.Selector}
  {outs : List Outcome} {report : Report} {lost : List Instance}

/-- **The report of a pass or drain balances**, whatever the outcomes. -/
theorem Begins.balances (h : Begins d p₀ lost) (hcourse : Course p₀ p outs) (hplan : p.plan = [])
    (hend : p.proceed f = .finished work report) :
    report.Balances d work (outs.map (·.dispatch)) outs (outs.countP (!·.isSkipped)) := by
  have hledger := hcourse.ledger h.sound h.blank
  obtain ⟨failures, hnotes, hfailed, hlog⟩ := hledger.failures
  obtain ⟨gone, created, hshares⟩ := hledger.shares
  obtain ⟨hworklog, hinst, -, state, finishedAt, rfl⟩ := report_of_finished hend
  have hlost : lost.length = p.report.lost := h.lost_length.trans hcourse.constants.1.symm
  -- what is gone was there, so it was not lost
  have hgone : ∀ i ∈ gone, i ∈ d.instances ∧ i ∉ lost := fun i hi => by
    have hmem := hshares.gone_subset hi
    rw [h.instances] at hmem
    obtain ⟨hthere, hnotlost⟩ := List.mem_filter.1 hmem
    exact ⟨hthere, by simpa using hnotlost⟩
  have hnodup : (lost ++ gone).Nodup :=
    List.nodup_append.2 ⟨h.lost_nodup, hshares.gone_nodup,
      fun a ha b hb hab => (hgone b hb).2 (hab ▸ ha)⟩
  have hsubset : lost ++ gone ⊆ d.instances :=
    List.append_subset.2 ⟨h.lost_subset, fun i hi => (hgone i hi).1⟩
  have hstay : p.work.instances = d.instances.filter (· ∉ lost ++ gone) ++ created := by
    rw [hshares.instances, h.instances, Lists.filter_notMem_append]
  constructor
  case instances =>
    have hlength := Lists.length_filter_notMem h.nodup hnodup hsubset
    have hcount := congrArg List.length hstay
    rw [List.length_append, hlost, hshares.gone_length] at hlength
    rw [List.length_append, hshares.created_length] at hcount
    dsimp only
    omega
  case counted => rw [hinst]
  case calls =>
    have hmade := hledger.made
    rw [hledger.skipped] at hmade
    have hsplit := List.length_eq_countP_add_countP Outcome.isSkipped (l := outs)
    simp only [Bool.not_eq_true, Bool.decide_eq_false] at hsplit
    show p.report.dispatches = _
    omega
  case complete =>
    rw [List.length_map]
    exact hledger.made
  case outcomes => rfl
  case skipped => exact hledger.skipped
  case cancelled => exact hledger.cancelled
  case failures =>
    refine ⟨failures, hnotes, hfailed, fun hnil => ?_, fun hne => ?_⟩
    · rw [hworklog, hlog, hnil]
      exact h.errorLog
    · rw [hworklog, hlog, Deployment.errorLog_recordFailures_of_ne_nil _ hne, h.errorLog,
        h.capacity]
  case stays =>
    exact ⟨lost, gone, created, hnodup, hsubset, hlost, hshares.gone_length,
      hshares.created_length, hinst.trans hstay⟩
  case bounded =>
    have hlength := hcourse.length_planned_le.2
    have hle := h.plan_le
    have hstale : p₀.work.stale.length ≤ d.instances.length := by
      refine Nat.le_trans (List.length_filter_le ..) ?_
      rw [h.instances]
      exact List.length_filter_le ..
    rw [hplan, List.length_nil] at hlength
    rw [List.length_map]
    omega

/-- What a pass warns of in the beginning its report says in the end. -/
theorem Warns.finished {missing : Nat} (h : p₀.Warns missing) (hphase : p₀.phase ≠ .drain)
    (hcourse : Course p₀ p outs) (hplan : p.plan = [])
    (hend : p.proceed f = .finished work report) :
    report.Warns work (outs.map (·.dispatch)) missing := by
  have hwarnings := (hcourse.kept hphase).2.1
  have hshortfall := hcourse.constants.2
  have heligible := hcourse.eligible
  have hcreates := hcourse.countP_creates
  obtain ⟨-, -, hsame, state, finishedAt, rfl⟩ := report_of_finished hend
  rw [creates, hplan, List.countP_nil, Nat.add_zero, creates] at hcreates
  refine ⟨?_, fun hzero => ?_, fun hshort => ?_⟩
  · rw [List.countP_map, ← h.creations, ← hcreates]
    exact congrArg _ hshortfall
  · rw [hsame, hwarnings]
    exact h.silent (hshortfall ▸ hzero)
  · rw [hsame, hwarnings]
    obtain ⟨eligible, hsome, hwarned⟩ := h.warned (hshortfall ▸ hshort)
    exact ⟨eligible, heligible.trans hsome, by rw [hwarned, ← hshortfall]⟩

end Pass

end FleetControl
