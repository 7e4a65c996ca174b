import FleetControl.Proofs.Control.Sweeps

/-!
# How far the one pass of a deployment is

From a state at rest (`State.AtRest`) passes are started, at most one for a deployment. Whatever the
other processes do meanwhile, the process that serves the deployment takes it along a course that is
settled beforehand (`State.Leads`): `Control.Standing` says how far it has come, in every state of
every such run (`Control.standing_run`).

The process is alone with its deployment (`Control.Sole`), so nobody else writes the record, and
whatever else it reads stays the same all along (`Control.Along`).
-/

namespace FleetControl

namespace Control

/-! ### Who serves a deployment -/

/-- The process is one of those from `n` on, and for a pass of the deployment. -/
def State.Serves (s : State) (n : Nat) (q : ProcId) (id : String) : Prop :=
  n ≤ q ∧ ∃ errand stage, s.procs[q]? = some ⟨errand, stage⟩ ∧ errand.IsFor id

/-- The process serves the deployment, and no other does. -/
structure Sole (s : State) (n : Nat) (p : ProcId) (id : String) : Prop where
  serves : s.Serves n p id
  unique : ∀ {q}, s.Serves n q id → q = p

section

variable {s s' : State} {l : Label} {p q : ProcId} {n : Nat} {id : String} {errand : Errand}
  {stage : Stage} {i : SlotId}

/-- A process has kept its errand, or the step has started it. -/
theorem Arrives.origin (h : Arrives s q l errand stage) :
    (∃ old, s.procs[q]? = some ⟨errand, old⟩) ∨
      s.procs.size ≤ q ∧ ∀ id, errand.IsFor id → l.passes id = 1 := by
  have hturned : ∀ {i : SlotId} {s₁ : State} {progress : Progress},
      Turn s q errand i s₁ progress → ∃ old, s.procs[q]? = some ⟨errand, old⟩ := fun hturn =>
    let ⟨old, hold, _⟩ := hturn.proc
    ⟨old, hold⟩
  cases h with
  | stayed _ hold => exact .inl ⟨_, hold⟩
  | handed _ hold => exact .inl ⟨_, hold⟩
  | missed hold _ => exact .inl ⟨_, hold⟩
  | looked hold _ => exact .inl ⟨_, hold⟩
  | flagged hold => exact .inl ⟨_, hold⟩
  | locked hold => exact .inl ⟨_, hold⟩
  | waited hold _ => exact .inl ⟨_, hold⟩
  | unplaced hold _ _ _ => exact .inl ⟨_, hold⟩
  | dispatched hturn => exact .inl (hturned hturn)
  | aborted hturn _ => exact .inl (hturned hturn)
  | finished hturn => exact .inl (hturned hturn)
  | issued hold _ => exact .inl ⟨_, hold⟩
  | called _ hold _ => exact .inl ⟨_, hold⟩
  | triggered id' hsize =>
    refine .inr ⟨Nat.le_of_eq hsize, fun id hfor => ?_⟩
    rcases hfor with heq | heq <;> cases heq
    exact if_pos rfl
  | swept hsize _ => exact .inr ⟨hsize, fun _ _ => rfl⟩
  | refused hsize _ => exact .inr ⟨Nat.le_of_eq hsize, by rintro _ (heq | heq) <;> cases heq⟩
  | accepted hsize _ => exact .inr ⟨Nat.le_of_eq hsize, by rintro _ (heq | heq) <;> cases heq⟩
  | unknown hsize _ => exact .inr ⟨Nat.le_of_eq hsize, by rintro _ (heq | heq) <;> cases heq⟩
  | unlisted hsize _ => exact .inr ⟨Nat.le_of_eq hsize, by rintro _ (heq | heq) <;> cases heq⟩

theorem State.Serves.origin (h : s'.Serves n q id) (hl : Locked s) (hstep : step s l = some s') :
    s.Serves n q id ∨ s.procs.size ≤ q ∧ l.passes id = 1 := by
  obtain ⟨hle, errand, stage, hq, hfor⟩ := h
  rcases (arrives_of_step hl hstep hq).origin with ⟨old, hold⟩ | ⟨hnew, hpasses⟩
  · exact .inl ⟨hle, errand, old, hold, hfor⟩
  · exact .inr ⟨hnew, hpasses id hfor⟩

theorem State.Serves.step (h : s.Serves n q id) (hl : Locked s)
    (hstep : Control.step s l = some s') : s'.Serves n q id := by
  obtain ⟨hle, errand, stage, hq, hfor⟩ := h
  obtain ⟨hlt, -⟩ := Array.getElem?_eq_some_iff.1 hq
  have hq' := Array.getElem?_eq_getElem (exists_proc_step hl hstep hlt)
  rcases (arrives_of_step hl hstep hq').origin with ⟨old, hold⟩ | ⟨hnew, -⟩
  · cases hq.symm.trans hold
    exact ⟨hle, _, _, hq', hfor⟩
  · exact absurd hlt (Nat.not_lt.2 hnew)

theorem Sole.isFor (h : Sole s n p id) (hp : s.procs[p]? = some ⟨errand, stage⟩) :
    errand.IsFor id := by
  obtain ⟨-, errand', stage', hp', hfor⟩ := h.serves
  cases hp.symm.trans hp'
  exact hfor

/-- A process stays alone with its deployment until another pass of it is started. -/
theorem Sole.step (h : Sole s n p id) (hl : Locked s) (hnone : l.passes id = 0)
    (hstep : Control.step s l = some s') : Sole s' n p id := by
  refine ⟨h.serves.step hl hstep, fun hq => ?_⟩
  rcases hq.origin hl hstep with hold | ⟨-, hpasses⟩
  · exact h.unique hold
  · cases hnone.symm.trans hpasses

/-- Where nobody serves a deployment, one process does once a pass is started. -/
theorem sole_of_start (hnone : ∀ q, ¬ s.Serves n q id) (hl : Locked s) (hn : n ≤ s.procs.size)
    (hget : s.index.get? id = some i) (hpasses : l.passes id = 1) (hstep : step s l = some s') :
    ∃ p errand stage, Sole s' n p id ∧ s'.procs[p]? = some ⟨errand, stage⟩ ∧
      2 < stage.rank := by
  have hnew : ∀ {q}, s'.Serves n q id → s.procs.size ≤ q := fun hq =>
    ((hq.origin hl hstep).resolve_left (hnone _)).1
  cases moves_of_step hstep with
  | triggered id' =>
    obtain rfl : id' = id := by
      by_contra hne
      simp [Label.passes, hne] at hpasses
    have hp : (s.spawn (.trigger id') (.lookup id')).1.procs[s.procs.size]? =
        some ⟨.trigger id', .lookup id'⟩ := by
      rw [State.procs_spawn, if_pos rfl]
    refine ⟨s.procs.size, _, _, ⟨⟨hn, _, _, hp, .inl rfl⟩, fun {q} hq => ?_⟩, hp, by simp [Stage.rank]⟩
    have hle := hnew hq
    obtain ⟨-, errand, stage, hproc, -⟩ := hq
    obtain ⟨hlt, -⟩ := Array.getElem?_eq_some_iff.1 hproc
    simp only [State.spawn, Array.size_push] at hlt
    exact Nat.le_antisymm (Nat.le_of_lt_succ hlt) hle
  | swept =>
    have hkey : id ∈ s.sweep.2.map (·.1) := by
      rw [s.keys_sweep]
      exact SortedMap.mem_keys.2 ⟨i, hget⟩
    obtain ⟨⟨id', p⟩, hmem, rfl⟩ := List.mem_map.1 hkey
    obtain ⟨hle, j, -, hp⟩ := State.proc_of_sweep hmem
    refine ⟨p, _, _, ⟨⟨hn.trans hle, _, _, hp, .inr rfl⟩, fun {q} hq => ?_⟩, hp, by simp [Stage.rank]⟩
    have hle' := hnew hq
    obtain ⟨-, errand, stage, hproc, hfor⟩ := hq
    have hproc' := hproc
    rw [s.procs_sweep, if_neg (Nat.not_lt.2 hle')] at hproc'
    obtain ⟨e, -, heq⟩ := Option.map_eq_some_iff.1 hproc'
    rcases hfor with rfl | rfl
    · cases heq
    · exact State.sweep_unique hproc hp hle' hle
  | called _ hcall => rcases hcall with ⟨rfl, -⟩ | ⟨rfl, -⟩ <;> cases hpasses
  | _ => cases hpasses

end

/-! ### Runs of passes from rest -/

/-- All is over, no listed deployment is flagged, and the policy draws nothing. -/
structure State.AtRest (s : State) : Prop where
  reliable : Reliable s
  unflagged : Unflagged s
  quiet : s.Over
  steady : s.selector.policy.IsSteady

/-- What holds in the states of a run of passes from `s` on. -/
structure Along (s s' : State) : Prop where
  reliable : Reliable s'
  unflagged : Unflagged s'
  unmoved : Unmoved s s'
  size : s.procs.size ≤ s'.procs.size
  attends : ∀ {q errand stage}, s'.procs[q]? = some ⟨errand, stage⟩ →
    Attends s s.procs.size q errand stage

section

variable {s s' s₁ sₜ : State} {l : Label} {p q : ProcId} {n : Nat} {id : String} {errand : Errand}
  {stage : Stage} {i : SlotId} {d work work' : Deployment} {report report' : Report}
  {progress : Progress} {labels : List Label}

theorem State.AtRest.along (h : s.AtRest) : Along s s where
  reliable := h.reliable
  unflagged := h.unflagged
  unmoved := .refl s
  size := Nat.le_refl _
  attends := fun {q errand stage} hq => by
    obtain ⟨answer, rfl⟩ := h.quiet.ended hq
    exact .ended errand answer

theorem Along.intact (h : Along s s') : Intact s' := h.reliable.lively.intact

theorem Along.get? (h : Along s s') (hget : s.index.get? id = some i) :
    s'.index.get? id = some i := by
  rwa [h.unmoved.index]

theorem Along.step (h : Along s s') (hs : s.AtRest) (hl : l.isPassing)
    (hstep : Control.step s' l = some s₁) : Along s s₁ where
  reliable := h.reliable.step hstep
  unflagged := h.unflagged.step h.intact hstep
  unmoved := h.unmoved.trans (unmoved_step (h.unmoved.selector ▸ hs.steady) hl hstep)
  size := h.size.trans (Nat.le_of_not_lt fun hlt =>
    Nat.lt_irrefl _ (exists_proc_step h.intact.locked hstep hlt))
  attends := fun hq =>
    Attends.step (fun _ _ hq => h.attends hq) h.intact h.unmoved.index h.size hl hstep hq

/-- Who holds the slot of a deployment serves it. -/
theorem Along.serves_of_held (h : Along s s') (hget : s.index.get? id = some i)
    (hq : s'.procs[q]? = some ⟨errand, stage⟩) (hheld : stage.held? = some i) :
    s'.Serves s.procs.size q id := by
  have hslot := Stage.slot?_of_held hheld
  cases h.attends hq with
  | ended answer => cases hheld
  | ahead _ _ => cases hheld
  | placed hle hfor hget' hslot' =>
    cases hslot.symm.trans hslot'
    rw [h.intact.injective (h.get? hget) (h.get? hget')]
    exact ⟨hle, _, _, hq, hfor⟩

/-- The slot that a process knows is that of the deployment that it serves. -/
theorem Along.slot_eq (h : Along s s') (hget : s.index.get? id = some i) (hfor : errand.IsFor id)
    (hq : s'.procs[q]? = some ⟨errand, stage⟩) {j : SlotId} (hslot : stage.slot? = some j) :
    j = i := by
  cases h.attends hq with
  | ended answer => cases hslot
  | ahead _ _ => cases hslot
  | placed _ hfor' hget' hslot' =>
    cases hfor.unique hfor'
    cases hget.symm.trans hget'
    exact Option.some.inj (hslot.symm.trans hslot')

/-- Only who serves a deployment writes its record. -/
theorem Along.recordAt_step (h : Along s s') (hget : s.index.get? id = some i) (hl : l.isPassing)
    (hstep : Control.step s' l = some s₁) : s₁.recordAt i = s'.recordAt i ∨
      ∃ q errand stage, l.actor? = some q ∧ s'.procs[q]? = some ⟨errand, stage⟩ ∧
        stage.held? = some i ∧ s'.Serves s.procs.size q id := by
  rcases record_step hstep (h.intact.bound (h.get? hget)) with hsame | ⟨-, request, fresh, rfl⟩ |
    ⟨q, rfl, hheld⟩
  · exact .inl hsame
  · cases hl
  · obtain ⟨stage, hstage, hheld⟩ := Option.bind_eq_some_iff.1 hheld
    obtain ⟨⟨errand, _⟩, hq, rfl⟩ := Option.map_eq_some_iff.1 hstage
    exact .inr ⟨q, errand, _, rfl, hq, hheld, h.serves_of_held hget hq hheld⟩

/-- The record of a deployment stays as it is while who alone serves it does not hold its slot, or
takes no step. -/
theorem Along.recordAt_kept (h : Along s s') (hget : s.index.get? id = some i) (hl : l.isPassing)
    (hstep : Control.step s' l = some s₁) (hsole : Sole s' s.procs.size p id)
    (hp : s'.procs[p]? = some ⟨errand, stage⟩) (hidle : l.actor? ≠ some p ∨ stage.held? = none) :
    s₁.recordAt i = s'.recordAt i := by
  rcases h.recordAt_step hget hl hstep with hsame | ⟨q, errand', stage', hactor, hq, hheld, hserves⟩
  · exact hsame
  · obtain rfl := hsole.unique hserves
    cases hp.symm.trans hq
    rcases hidle with hother | hfree
    · exact absurd hactor hother
    · cases hfree.symm.trans hheld

/-! ### The course that is settled beforehand -/

/-- What comes of a dispatch under the settings, without the handle. -/
def State.verdict (s : State) : Dispatch → Except DispatchError String :=
  s.engine.verdict s.settings.dispatchTimeoutMs.toNat

/-- A pass on the record that begins in the state comes to this point, as the calls turn out. -/
def State.Leads (s : State) (d : Deployment) (progress : Progress) : Prop :=
  ∃ pass selector, Pass.start s.fleet d.begun = .planned pass selector ∧
    Progress.Leads s.fleet.still s.verdict (pass.launch s.fleet).bare progress.bare

/-- **The course of a pass has one end**, but for clocks and handles. -/
theorem State.Leads.unique (h : s.Leads d (.finished work report))
    (h' : s.Leads d (.finished work' report')) :
    work.bare = work'.bare ∧ report.bare = report'.bare := by
  obtain ⟨pass, selector, hstart, hleads⟩ := h
  obtain ⟨pass', selector', hstart', hleads'⟩ := h'
  cases hstart.symm.trans hstart'
  exact Progress.Leads.unique hleads hleads'

/-- A pass begins as it would have begun at rest. -/
theorem Along.leads_launch {pass : Pass} {selector : Placement.Selector} (h : Along s s')
    (hs : s.AtRest) (hstart : Pass.start s'.fleet d.begun = .planned pass selector) :
    s.Leads d (pass.launch { s'.fleet with selector }) := by
  have hsteady : s'.selector.policy.IsSteady := h.unmoved.selector ▸ hs.steady
  obtain rfl : selector = s'.selector := Pass.start_steady hsteady hstart
  obtain ⟨pass₀, hstart₀, hbare⟩ := Pass.start_congr h.unmoved.still hstart
  have hlaunch : (pass.launch s'.fleet).bare = (pass₀.launch s.fleet).bare := by
    rw [Pass.bare_launch, Pass.bare_launch, h.unmoved.still, hbare]
  refine ⟨pass₀, _, hstart₀, ?_⟩
  rw [← hlaunch]
  exact .refl

/-- It goes on as it would have gone on at rest, when its calls come to what is foreseen. -/
theorem Along.leads_conclude {pass : Pass} {outcomes : List Outcome} (h : Along s s')
    (hleads : s.Leads d (.dispatching pass))
    (houtcomes : outcomes.map Outcome.bare = pass.plan.map fun x => ⟨x, s.verdict x⟩) :
    s.Leads d (pass.conclude s'.fleet outcomes) := by
  obtain ⟨pass₀, selector, hstart, hcourse⟩ := hleads
  refine ⟨pass₀, selector, hstart, ?_⟩
  rw [Pass.bare_conclude, houtcomes, h.unmoved.still]
  exact hcourse.conclude

/-- How far the pass of a deployment is whose record was `d`, when `k` have been started. -/
inductive Standing (s : State) (id : String) (i : SlotId) (d : Deployment) (s' : State) :
    (k : Nat) → Prop
  /-- No pass is started. -/
  | idle : (∀ q, ¬ s'.Serves s.procs.size q id) → s'.recordAt i = some d → Standing s id i d s' 0
  /-- It has not begun. -/
  | ahead {p : ProcId} {errand : Errand} {stage : Stage} : Sole s' s.procs.size p id →
      s'.procs[p]? = some ⟨errand, stage⟩ → 2 < stage.rank → s'.recordAt i = some d →
      Standing s id i d s' 1
  /-- A plan is under way. -/
  | working {p : ProcId} {errand : Errand} {pass : Pass} {batch : Batch} :
      Sole s' s.procs.size p id → s'.IsWorking p errand i pass batch →
      s'.recordAt i = some d.begun → pass.work.CopyOf d.begun →
      batch.Foreseen s.engine s.settings.dispatchTimeoutMs.toNat →
      s.Leads d (.dispatching pass) → Standing s id i d s' 1
  /-- It is over. -/
  | ended {p : ProcId} {work : Deployment} {report : Report} : Sole s' s.procs.size p id →
      s'.answer? p = some (.reported report) → s'.recordAt i = some work →
      s.Leads d (.finished work report) → Standing s id i d s' 1

/-- What a turn of the process comes to. -/
theorem standing_of_follow (hsame : SameWorld s sₜ) (hcap : Countable sₜ) (hlocked : Locked sₜ)
    (hproc : sₜ.procs[p]? = some ⟨errand, stage⟩) (hheld : stage.held? = some i)
    (hfor : errand.IsFor id) (hrecord : sₜ.recordAt i = some d.begun)
    (hcopy : progress.work.CopyOf d.begun) (hleads : s.Leads d progress)
    (hfollow : Follow sₜ p errand i progress s₁) (hsole : Sole s₁ s.procs.size p id) :
    Standing s id i d s₁ 1 := by
  cases hfollow with
  | dispatched pass _ =>
    refine .working hsole (State.procs_setStage_self hproc _) hrecord hcopy ?_ hleads
    rw [State.batchOf, hsame.settings]
    exact Batch.foreseen_ofPlan ..
  | aborted pass hover => exact absurd hover (Nat.not_lt.2 (hcap.permits_le _))
  | published work report _ =>
    have hlocked' : Locked (sₜ.mapRecord i (·.absorb work)) := hlocked.mapRecord ..
    have hanswer := answer?_endProc hlocked' hproc hheld (State.answerOf errand work report)
    have habsorb : d.begun.absorb work = work :=
      Deployment.absorb_of_generation_eq hcopy.generation
    refine .ended hsole (hanswer.trans (congrArg some (hfor.answerOf work report))) ?_ hleads
    rw [State.recordAt_endProc, State.recordAt_mapRecord_self hrecord, habsorb]
  | deleted id' work report hdelete => exact absurd hdelete (hfor.isPass id')

/-! ### Steps of the pass -/

/-- A pass that has not begun begins, or comes closer to it. -/
theorem standing_of_ahead (h : Along s s') (hs : s.AtRest) (hget : s.index.get? id = some i)
    (hl : l.isPassing) (hstep : Control.step s' l = some s₁) (hactor : l.actor? = some p)
    (hsole : Sole s' s.procs.size p id) (hsole₁ : Sole s₁ s.procs.size p id)
    (hp : s'.procs[p]? = some ⟨errand, stage⟩) (hrank : 2 < stage.rank)
    (hrecord : s'.recordAt i = some d) : Standing s id i d s₁ 1 := by
  have hfor := hsole.isFor hp
  have hkept : stage.held? = none → s₁.recordAt i = some d := fun hfree =>
    (h.recordAt_kept hget hl hstep hsole hp (.inr hfree)).trans hrecord
  have hset : ∀ {s₂ : State} (new : Stage), s₂.procs = s'.procs →
      (s₂.setStage p new).procs[p]? = some ⟨errand, new⟩ := fun new hprocs =>
    State.procs_setStage_self (hprocs ▸ hp) new
  cases ownMove_of_step hp hstep hactor with
  | missed hnone =>
    -- the deployment is listed all along
    cases h.attends hp with
    | ahead _ hfor' =>
      cases hfor.unique hfor'
      cases (h.get? hget).symm.trans hnone
    | placed _ _ _ hslot => cases hslot
  | looked _ => exact .ahead hsole₁ (hset _ rfl) (by simp [Stage.rank]) (hkept rfl)
  | flagged j => exact .ahead hsole₁ (hset _ rfl) (by simp [Stage.rank]) (hkept rfl)
  | locked _ _ => exact .ahead hsole₁ (hset _ rfl) (by simp [Stage.rank]) (hkept rfl)
  | waited _ _ => exact .ahead hsole₁ (hset _ rfl) (by simp [Stage.rank]) (hkept rfl)
  | unplaced _ hslot hstart => exact absurd hstart (h.reliable.placed.start_ne_failed hslot _ _)
  | @turned _ j sₜ _ progress hheld hturn hfollow =>
    obtain rfl := h.slot_eq hget hfor hp (Stage.slot?_of_held hheld)
    have hsame := h.unmoved.toSameWorld.trans hturn.sameWorld
    have hcap := h.reliable.countable.turn hturn
    have hlocked := h.intact.locked.turn hturn
    have hprocs := hturn.procs
    cases hturn with
    | @opened _ _ sl pass selector hadmitted hpass hslot hstart =>
      cases hp.symm.trans hadmitted
      obtain rfl : sl.record = d :=
        Option.some.inj ((State.recordAt_of_slot hslot).symm.trans hrecord)
      have hleads := h.leads_launch hs hstart
      have hcopy := (Pass.launch_copyOf { s'.fleet with selector } pass).trans
        (Pass.start_planned hstart).1
      have hbegun : (s'.mapRecord j fun _ => sl.record.begun).recordAt j = some sl.record.begun :=
        State.recordAt_mapRecord_self hrecord _
      exact standing_of_follow hsame hcap hlocked (hprocs ▸ hp) rfl hfor hbegun hcopy hleads
        hfollow hsole₁
    | drained hadmitted _ =>
      cases hp.symm.trans hadmitted
      exact absurd rfl (hfor.isPass _)
    | concluded hworking _ _ _ =>
      cases hp.symm.trans hworking
      exact absurd hrank (Nat.not_lt.2 Stage.rank_working_le)
  | issued _ _ => exact absurd hrank (Nat.not_lt.2 Stage.rank_working_le)
  | started _ => exact absurd hrank (Nat.not_lt.2 Stage.rank_working_le)
  | settled _ => exact absurd hrank (Nat.not_lt.2 Stage.rank_working_le)

/-- A plan that is under way goes on as foreseen. -/
theorem standing_of_working {pass : Pass} {batch : Batch} (h : Along s s')
    (hget : s.index.get? id = some i) (hstep : Control.step s' l = some s₁)
    (hactor : l.actor? = some p) (hsole : Sole s' s.procs.size p id)
    (hsole₁ : Sole s₁ s.procs.size p id) (hp : s'.IsWorking p errand i pass batch)
    (hrecord : s'.recordAt i = some d.begun) (hcopy : pass.work.CopyOf d.begun)
    (hforeseen : batch.Foreseen s.engine s.settings.dispatchTimeoutMs.toNat)
    (hleads : s.Leads d (.dispatching pass)) : Standing s id i d s₁ 1 := by
  have hproc : s'.procs[p]? = some ⟨errand, .working i pass batch⟩ := hp
  have hfor := hsole.isFor hproc
  have hforeseen' := hforeseen.congr h.unmoved.nodes
  have hworking : ∀ {s₂ : State} {batch' : Batch}, s₂.procs = s'.procs →
      (s₂.setStage p (.working i pass batch')).IsWorking p errand i pass batch' := fun hprocs =>
    State.procs_setStage_self (hprocs ▸ hproc) _
  cases workStep_of_step hp hstep hactor with
  | @issued sl batch' hslot hhand =>
    -- the deployment is not being deleted, so its calls are made
    have hflag := (h.unflagged ⟨id, h.get? hget⟩).1
    rw [State.cancelledAt, hslot, Option.map_some, Option.some.injEq] at hflag
    have hcalls : State.isCancelled errand sl = false := by
      rcases hfor with rfl | rfl <;> exact hflag
    rw [hcalls] at hhand
    exact .working hsole₁ (hworking rfl) hrecord hcopy (hforeseen.handOut hhand) hleads
  | started hcall =>
    have hafter := (hforeseen'.start hcall).congr h.unmoved.nodes.symm
    exact .working hsole₁ (hworking rfl) hrecord hcopy hafter hleads
  | settled hcall =>
    have hafter := (hforeseen'.settle hcall).congr h.unmoved.nodes.symm
    exact .working hsole₁ (hworking rfl) hrecord hcopy hafter hleads
  | concluded hslot hdone hfollow =>
    have houtcomes := hforeseen.outcomes hdone
    rw [h.intact.plans hp] at houtcomes
    have hnext := h.leads_conclude hleads houtcomes
    exact standing_of_follow h.unmoved.toSameWorld h.reliable.countable h.intact.locked hp rfl hfor
      hrecord ((Pass.conclude_copyOf ..).trans hcopy) hnext hfollow hsole₁

/-- **A step keeps the pass on its course.** -/
theorem Standing.step {k : Nat} (hst : Standing s id i d s' k) (h : Along s s') (hs : s.AtRest)
    (hget : s.index.get? id = some i) (hl : l.isPassing) (hcount : k + l.passes id ≤ 1)
    (hstep : Control.step s' l = some s₁) : Standing s id i d s₁ (k + l.passes id) := by
  have hlocked := h.intact.locked
  cases hst with
  | idle hnone hrecord =>
    have hkept : s₁.recordAt i = some d := by
      rcases h.recordAt_step hget hl hstep with hsame | ⟨q, _, _, _, _, _, hserves⟩
      · rw [hsame, hrecord]
      · exact absurd hserves (hnone q)
    rw [Nat.zero_add] at hcount ⊢
    rcases Nat.le_one_iff_eq_zero_or_eq_one.1 hcount with hzero | hone
    · rw [hzero]
      refine .idle (fun q hq => ?_) hkept
      rcases hq.origin hlocked hstep with hold | ⟨-, hpasses⟩
      · exact hnone q hold
      · cases hzero.symm.trans hpasses
    · rw [hone]
      obtain ⟨p, errand, stage, hsole, hp, hrank⟩ :=
        sole_of_start hnone hlocked h.size (h.get? hget) hone hstep
      exact .ahead hsole hp hrank hkept
  | @ahead p errand stage hsole hp hrank hrecord =>
    have hzero : l.passes id = 0 := by omega
    have hsole₁ := hsole.step hlocked hzero hstep
    rw [hzero]
    by_cases hactor : l.actor? = some p
    · exact standing_of_ahead h hs hget hl hstep hactor hsole hsole₁ hp hrank hrecord
    · have hkept := (h.recordAt_kept hget hl hstep hsole hp (.inl hactor)).trans hrecord
      rcases proc_step hlocked hstep hactor hp with hsame | ⟨j, rfl, hadmitted⟩
      · exact .ahead hsole₁ hsame hrank hkept
      · exact .ahead hsole₁ hadmitted (by simp [Stage.rank]) hkept
  | @working p errand pass batch hsole hp hrecord hcopy hforeseen hleads =>
    have hzero : l.passes id = 0 := by omega
    have hsole₁ := hsole.step hlocked hzero hstep
    rw [hzero]
    by_cases hactor : l.actor? = some p
    · exact standing_of_working h hget hstep hactor hsole hsole₁ hp hrecord hcopy hforeseen hleads
    · have hkept := (h.recordAt_kept hget hl hstep hsole hp (.inl hactor)).trans hrecord
      rcases proc_step hlocked hstep hactor hp with hsame | ⟨j, ⟨⟩, -⟩
      exact .working hsole₁ hsame hkept hcopy hforeseen hleads
  | @ended p work report hsole hanswer hrecord hleads =>
    have hzero : l.passes id = 0 := by omega
    obtain ⟨errand, hp⟩ := State.answer?_eq_some.1 hanswer
    have hkept := (h.recordAt_kept hget hl hstep hsole hp (.inr rfl)).trans hrecord
    rw [hzero]
    exact .ended (hsole.step hlocked hzero hstep) (answer_step hlocked hstep hanswer) hkept hleads

/-! ### The whole run -/

theorem along_run (hs : s.AtRest) (hl : ∀ l ∈ labels, l.isPassing)
    (hrun : run s labels = some s') : Along s s' := by
  refine run_induction (P := fun labels s' => (∀ l ∈ labels, l.isPassing) → Along s s')
    (fun _ => hs.along) ?_ hrun hl
  intro labels s' l s₁ _ h hstep hl
  exact (h fun l hmem => hl l (List.mem_append_left _ hmem)).step hs (hl l (by simp)) hstep

/-- **The pass is on its course all along**, whatever passes there are besides. -/
theorem standing_run (hs : s.AtRest) (hget : s.index.get? id = some i)
    (hd : s.recordAt i = some d) (hl : ∀ l ∈ labels, l.isPassing) (hcount : passes id labels ≤ 1)
    (hrun : run s labels = some s') : Standing s id i d s' (passes id labels) := by
  refine run_induction (P := fun labels s' => (∀ l ∈ labels, l.isPassing) →
    passes id labels ≤ 1 → Standing s id i d s' (passes id labels)) ?_ ?_ hrun hl hcount
  · refine fun _ _ => .idle ?_ hd
    rintro q ⟨hle, errand, stage, hq, -⟩
    exact absurd hle (Nat.not_le.2 (Array.getElem?_eq_some_iff.1 hq).1)
  · intro labels s' l s₁ hrun h hstep hl hcount
    rw [passes_concat] at hcount ⊢
    have hl' : ∀ l ∈ labels, l.isPassing := fun l hmem => hl l (List.mem_append_left _ hmem)
    have hst := h hl' (Nat.le_trans (Nat.le_add_right ..) hcount)
    exact hst.step (along_run hs hl' hrun) hs hget (hl l (by simp)) hcount hstep

end

end Control

end FleetControl
