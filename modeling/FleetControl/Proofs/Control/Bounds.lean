import FleetControl.Proofs.Config
import FleetControl.Proofs.Config.Toml
import FleetControl.Proofs.Control.Admission
import FleetControl.Proofs.Control.Tally
import FleetControl.Proofs.Pass.Bounds

/-!
# The sizes of a run

A configuration that is read sets how many calls of a plan may be under way at a time and how many
failures a record keeps. The settings stay as they are in a run, so every plan under way has the
permits of the configuration and every error log keeps within its capacity (`Control.Confined.run`);
the count of passes in vain is never above the number of passes (`Control.degraded_le_run`).

With the sizes of single passes this is `Control.sizes_bounded`: where the permits can be counted,
no pass comes to an arithmetic that its words cannot hold. Configurations with more permits than
that are read as well, and their passes are given up (`Control.permits_uncounted`).
-/

namespace FleetControl

namespace Control

section

variable {s s' s₀ : State} {l : Label} {labels : List Label} {i : SlotId} {d : Deployment}

/-- How many failures a record keeps under the settings. -/
def State.logCapacity (s : State) : Nat := max s.settings.errorLogCapacity.toNat 1

/-- Error logs keep within their capacity, for records and for passes under way, and plans under
way have the permits of the settings. -/
structure Confined (s : State) : Prop where
  logs : Tracks (fun _ d => d.LogWithin s.logCapacity)
    (fun _ _ _ p₀ => p₀.work.LogWithin s.logCapacity) s
  permits : ∀ {p errand i pass batch}, s.IsWorking p errand i pass batch →
    batch.permits = (s.batchOf []).permits

theorem State.Fresh.confined (h : s.Fresh) : Confined s where
  logs := h.tracks _ _
  permits := fun {p errand i pass batch} hp => by
    rw [State.IsWorking, h.procs] at hp
    cases hp

theorem upkeep_logWithin (s : State) (l : Label) :
    Upkeep s l (fun _ d => d.LogWithin s.logCapacity) (fun _ d => d.LogWithin s.logCapacity)
      (fun _ _ _ p₀ => p₀.work.LogWithin s.logCapacity)
      (fun _ _ _ p₀ => p₀.work.LogWithin s.logCapacity) := by
  have hroom : 1 ≤ s.logCapacity := Nat.le_max_right ..
  constructor
  case record_mono => exact id
  case pass_mono => exact id
  case founded => exact fun _ _ => Deployment.logWithin_new ..
  case revised => exact fun _ _ _ hd => hd.update _
  case begun => exact fun hd => hd.begun
  case unplaced => exact fun hd hstart => (Pass.logWithin_of_failed hstart hd.begun).absorb _
  case opened => exact fun _ _ _ _ hd hstart => Pass.logWithin_of_start hstart hd.begun
  case drained => exact fun _ _ _ hd => hd
  case finished =>
    intro p errand i p₀ q outs f work report d _ hb hcourse _ hend _
    exact (Pass.logWithin_of_finished hend (hcourse.logWithin hroom hb)).absorb d

theorem Confined.step (h : Confined s) (hl : Locked s) (hstep : Control.step s l = some s') :
    Confined s' := by
  have hsettings := settings_step hstep
  constructor
  · rw [State.logCapacity, hsettings]
    exact h.logs.step (upkeep_logWithin s l) hstep
  · intro p errand i pass batch hp
    rw [State.batchOf, hsettings]
    cases arrives_of_step hl hstep hp with
    | stayed _ hold => exact h.permits hold
    | dispatched hturn =>
      rw [State.batchOf, hturn.sameWorld.settings]
      rfl
    | issued hold hhand => exact (Batch.handOut_weight_lt hhand).2.trans (h.permits hold)
    | called _ hold hmove => exact hmove.weight_lt.2.trans (h.permits hold)

/-- **Sizes stay bounded** in every state of every run. -/
theorem Confined.run (h₀ : s₀.Fresh) (hrun : Control.run s₀ labels = some s) : Confined s :=
  (run_induction (P := fun _ s => Intact s ∧ Confined s) ⟨h₀.intact, h₀.confined⟩
    (fun _ _ _ _ _ hs hstep => ⟨hs.1.step hstep, hs.2.step hs.1.locked hstep⟩) hrun).2

theorem settings_run (hrun : Control.run s₀ labels = some s) : s.settings = s₀.settings :=
  run_induction (P := fun _ s => s.settings = s₀.settings) rfl
    (fun _ _ _ _ _ hs hstep => (settings_step hstep).trans hs) hrun

/-- The passes in vain since the last that converged are some of the passes. -/
theorem degraded_le_run (h₀ : s₀.Fresh) (hrun : Control.run s₀ labels = some s)
    (hd : s.recordAt i = some d) :
    d.consecutiveDegradedPasses ≤ (reports i s₀ labels).length := by
  have htally := congrArg Prod.snd (tally_run h₀ hrun hd)
  refine Nat.le_trans (Nat.le_of_eq htally) ?_
  exact (List.rtakeWhile_suffix ..).length_le

theorem settings_ofConfig {c : Config} {entropy : UInt64} {wall : Nat}
    (h : State.ofConfig c entropy wall = .ok s) : s.settings = c.engine := by
  obtain ⟨t, -, rfl⟩ := ofConfig_eq_ok.1 h
  rfl

end

/-! ### Configurations -/

/-- What is promised of the sizes in a state that a run under the configuration leads to. -/
structure Sized (c : Config) (s₀ : State) (labels : List Label) (s : State) : Prop where
  /-- No pass is given up. -/
  answers : ∀ (q : ProcId) (errand : Errand), s.procs[q]? ≠ some ⟨errand, .ended .aborted⟩
  /-- Plans have the permits of the configuration. -/
  permits : ∀ p errand i pass batch, s.IsWorking p errand i pass batch →
    batch.permits = c.engine.maxConcurrentDispatches.toNat ∧
      pass.work.LogWithin (max c.engine.errorLogCapacity.toNat 1)
  records : ∀ i d, s.recordAt i = some d →
    d.LogWithin (max c.engine.errorLogCapacity.toNat 1) ∧
      d.consecutiveDegradedPasses ≤ (reports i s₀ labels).length

/-- What is promised of the sizes under a configuration. -/
structure SizesBounded (c : Config) : Prop where
  /-- There is a permit, and no more than can be counted. -/
  permits : ∀ timeout plan,
    1 ≤ (Batch.ofPlan c.engine.maxConcurrentDispatches.toNat timeout plan).permits ∧
      (Batch.ofPlan c.engine.maxConcurrentDispatches.toNat timeout plan).permits ≤ Batch.maxPermits
  /-- What is selected is part of the demand, and the sum with what is left of it fits. -/
  targets : ∀ (selector : Placement.Selector) elected current (demand : UInt32),
    (selector.selectTargets elected current demand.toNat).1.nodes.length ≤ demand.toNat ∧
      (selector.selectTargets elected current demand.toNat).1.nodes.length +
        (selector.selectTargets elected current demand.toNat).1.shortfall < UInt32.size
  /-- Of a record and a registry of 32 bits everything that a pass counts on its way fits, and so do
  its instances if the stale ones and the scale do together. -/
  pass : ∀ f d p₀ selector p outs, d.instances.length < UInt32.size →
    f.registry.list.length < UInt32.size → Pass.start f d = .planned p₀ selector →
    Pass.Course p₀ p outs → p.Fits ∧ (∀ w ∈ p.work.warnings, w.Fits) ∧
      p.work.instances.length ≤ max d.instances.length (d.stale.length + d.scale)
  drain : ∀ now d p outs, d.instances.length < UInt32.size →
    Pass.Course (Pass.startDrain now d) p outs →
    p.Fits ∧ p.work.instances.length ≤ d.instances.length
  /-- In the end the instances are counted. -/
  counted : ∀ f p work report, Pass.proceed f p = .finished work report →
    report.instances = p.work.instances.length
  /-- Where a failure is noted, the log has room for it. -/
  room : ∀ d failure, Deployment.LogWithin (max c.engine.errorLogCapacity.toNat 1) d →
    1 ≤ d.errorLogCapacity ∧
      (d.errorLog.drop (d.errorLog.length + 1 - d.errorLogCapacity)).length < d.errorLogCapacity ∧
      (d.recordFailure failure).LogWithin (max c.engine.errorLogCapacity.toNat 1)
  run : ∀ entropy wall s₀ labels s, State.ofConfig c entropy wall = .ok s₀ →
    Control.run s₀ labels = some s → Sized c s₀ labels s

/-- The configuration sets at least one permit. -/
theorem one_le_permits {c : Config} (h : c.validate = .ok ()) :
    1 ≤ c.engine.maxConcurrentDispatches.toNat := by
  have hne := (Config.validate_eq_ok_iff.1 h).concurrency
  rw [ne_eq, ← UInt64.toNat_inj] at hne
  exact Nat.pos_of_ne_zero hne

theorem sized_of_run {c : Config} (hvalid : c.validate = .ok ())
    (hlimit : c.engine.maxConcurrentDispatches.toNat ≤ Batch.maxPermits) {entropy : UInt64}
    {wall : Nat} {s₀ s : State} {labels : List Label}
    (hinit : State.ofConfig c entropy wall = .ok s₀) (hrun : Control.run s₀ labels = some s) :
    Sized c s₀ labels s := by
  obtain ⟨hfresh, hsound⟩ := sound_ofConfig hinit
  have hsettings₀ := settings_ofConfig hinit
  have hsettings : s.settings = c.engine := (settings_run hrun).trans hsettings₀
  have hcountable : Countable s₀ := by rwa [Countable, hsettings₀]
  have hconfined := Confined.run hfresh hrun
  have hcapacity : s.logCapacity = max c.engine.errorLogCapacity.toNat 1 := by
    rw [State.logCapacity, hsettings]
  constructor
  · intro q errand hq
    -- a process is given up only where a step is not reliable
    cases accounted_run hfresh (hfresh.reliable hsound hcountable) hrun hq
  · intro p errand i pass batch hp
    obtain ⟨-, p₀, outs, hb, hcourse⟩ := hconfined.logs.pass hp
    refine ⟨?_, hcapacity ▸ hcourse.logWithin (Nat.le_max_right ..) hb⟩
    rw [hconfined.permits hp, State.batchOf, hsettings]
    exact Nat.max_eq_left (one_le_permits hvalid)
  · intro i d hd
    exact ⟨hcapacity ▸ hconfined.logs.record hd, degraded_le_run hfresh hrun hd⟩

/-- **No pass comes to an arithmetic that its words cannot hold** under a configuration that is
read, where its permits can be counted. -/
theorem sizes_bounded {text : String} {c : Config} (hload : Config.ofToml text = .ok c)
    (hlimit : c.engine.maxConcurrentDispatches.toNat ≤ Batch.maxPermits) : SizesBounded c := by
  have hvalid := (Config.valid_of_ofToml hload).1
  constructor
  case permits =>
    exact fun timeout plan => ⟨Nat.le_max_right .., Batch.permits_ofPlan_le hlimit timeout plan⟩
  case targets =>
    intro selector elected current demand
    obtain ⟨hle, hsum⟩ := selector.length_add_shortfall elected current demand.toNat
    exact ⟨hle, Nat.lt_of_le_of_lt (Nat.le_of_eq hsum) demand.toNat_lt_size⟩
  case pass =>
    intro f d p₀ selector p outs hd hknown hstart hcourse
    exact ⟨hcourse.fits hd hknown hstart, hcourse.warnings_fit hknown hstart,
      hcourse.length_instances_le hstart⟩
  case drain =>
    exact fun now d p outs hd hcourse => ⟨hcourse.fits_drain hd, hcourse.length_instances_drain_le⟩
  case counted => exact fun f p work report => Pass.instances_of_finished
  case room =>
    intro d failure hd
    have hcapacity : 1 ≤ d.errorLogCapacity := hd.limit ▸ Nat.le_max_right ..
    exact ⟨hcapacity, d.length_drop_errorLog_lt hcapacity,
      hd.recordFailure (Nat.le_max_right ..) failure⟩
  case run => exact fun entropy wall s₀ labels s => sized_of_run hvalid hlimit

/-- A configuration of one node, with a number of permits. -/
def permitting (n : UInt64) : Config where
  nodes := [{ id := "n" }]
  engine := { maxConcurrentDispatches := n }

/-- As many permits as can be counted. -/
theorem sizes_bounded_mostPermits :
    ∃ text, Config.ofToml text = .ok (permitting 2305843009213693951) ∧
      (permitting 2305843009213693951).engine.maxConcurrentDispatches.toNat ≤ Batch.maxPermits ∧
      SizesBounded (permitting 2305843009213693951) := by
  obtain ⟨text, -, hload⟩ := Config.ofToml_toToml (c := permitting 2305843009213693951)
    (by decide +kernel) (by decide)
  have hlimit : (permitting 2305843009213693951).engine.maxConcurrentDispatches.toNat ≤
      Batch.maxPermits := by decide
  exact ⟨text, hload, hlimit, sizes_bounded hload hlimit⟩

/-- **A configuration that is read may set more permits than can be counted**, and then its passes
are given up. -/
theorem permits_uncounted : ∃ text s₀ s,
    Config.ofToml text = .ok (permitting 9223372036854775807) ∧
      (∀ timeout plan, Batch.maxPermits < (Batch.ofPlan
        (permitting 9223372036854775807).engine.maxConcurrentDispatches.toNat timeout
        plan).permits) ∧
      State.ofConfig (permitting 9223372036854775807) 0 0 = .ok s₀ ∧
      run s₀ firstPasses = some s ∧ s.answer? 1 = some .aborted := by
  obtain ⟨text, -, hload⟩ := Config.ofToml_toToml (c := permitting 9223372036854775807)
    (by decide +kernel) (by decide)
  have hend : (State.ofConfig (permitting 9223372036854775807) 0 0).toOption.any fun s₀ =>
      (run s₀ firstPasses).any fun s => s.answer? 1 == some .aborted := by decide +kernel
  obtain ⟨s₀, hinit, hs₀⟩ := (Option.any_eq_true ..).1 hend
  obtain ⟨s, hrun, hs⟩ := (Option.any_eq_true ..).1 hs₀
  refine ⟨text, s₀, s, hload, fun timeout plan => ?_, ?_, hrun, beq_iff_eq.1 hs⟩
  · exact Nat.lt_of_lt_of_le (by decide) (Nat.le_max_left ..)
  · cases hconfig : State.ofConfig (permitting 9223372036854775807) 0 0 with
    | error e => rw [hconfig] at hinit; cases hinit
    | ok s₁ => rw [hconfig] at hinit; cases hinit; rfl

end Control

end FleetControl
