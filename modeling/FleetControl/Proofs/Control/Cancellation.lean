import FleetControl.Proofs.Control.Steps
import FleetControl.Proofs.Control.Accounts
import FleetControl.Proofs.Dispatch.Calls

/-!
# Cancelled passes

The flag of a slot is set by a process that has to (`Control.flag_step`) and stays set once it is
(`Control.cancelledAt_step`). From then on the passes on the slot hand out no call
(`Control.handedOut_step`), so the engine meets with the calls only that were handed out before
(`Control.handedOut_of_called`). What comes of these is recorded all the same: when the calls of a
plan are over, their outcomes go into the record or into the next plan (`Control.records_step`).
-/

namespace FleetControl

theorem Deployment.absorb_errorLog (d work : Deployment) :
    (d.absorb work).errorLog = work.errorLog := by
  obtain ⟨_, _, _, _, h⟩ := d.absorb_eq work
  rw [h]

namespace Control

/-- The process has handed out the call at a place of the plan of its pass. -/
def State.HandedOut (s : State) (q : ProcId) (i : SlotId) (pass : Pass) (k : Nat) : Prop :=
  ∃ errand batch c, errand.IsPass ∧ s.IsWorking q errand i pass batch ∧
    batch.calls[k]? = some c ∧ c.isHandedOut

section

variable {s s' s₁ : State} {l : Label} {p q : ProcId} {errand : Errand} {i j : SlotId} {pass : Pass}
  {batch : Batch} {k : Nat} {progress : Progress}

/-! ### The flag -/

/-- A flag changes only when it is set by a process that has to. -/
theorem flag_step (hstep : step s l = some s') (hi : i < s.slots.length) :
    s'.cancelledAt i = s.cancelledAt i ∨
      (∃ p, s.Flags p i) ∧ s'.cancelledAt i = some true := by
  have hkeep : ∀ {s : State} {j : SlotId} {f : Slot → Slot},
      (∀ sl, (f sl).cancelled = sl.cancelled) → (s.modifySlot j f).cancelledAt i = s.cancelledAt i :=
    fun hf => State.cancelledAt_modifySlot hf ..
  have hmap : ∀ {s : State} {j : SlotId} (f : Deployment → Deployment),
      (s.mapRecord j f).cancelledAt i = s.cancelledAt i := fun f => hkeep fun _ => rfl
  cases moves_of_step hstep with
  | @revised request _ _ j _ _ => exact .inl (hmap (s := s) (j := j) (·.update request))
  | @founded request fresh _ _ =>
    have hfound := State.slots_found (s := s) (s.newRecord request fresh) i
    rw [if_neg (Nat.ne_of_lt hi)] at hfound
    exact .inl (congrArg (Option.map Slot.cancelled) hfound)
  | swept =>
    exact .inl (State.sweep_induction (P := fun s' => s'.cancelledAt i = s.cancelledAt i) rfl
      fun _ _ _ hs' _ _ => hs')
  | @flagged p errand j hproc =>
    have hslots := State.slots_modifySlot (s := s) j i fun sl => { sl with cancelled := true }
    have hflag := congrArg (Option.map Slot.cancelled) hslots
    by_cases hji : j = i
    · subst hji
      rw [if_pos rfl, List.getElem?_eq_getElem hi] at hflag
      exact .inr ⟨⟨p, errand, hproc⟩, hflag⟩
    · rw [if_neg hji] at hflag
      exact .inl hflag
  | locked _ _ _ => exact .inl (hkeep fun _ => by rfl)
  | waited _ _ _ => exact .inl (hkeep fun _ => by rfl)
  | unplaced _ _ _ _ =>
    rw [State.cancelledAt_endProc]
    exact .inl ((hmap _).trans (hmap _))
  | @turned _ _ _ s₁ _ _ hturn hfollow =>
    have hturned : s₁.cancelledAt i = s.cancelledAt i := by
      cases hturn with
      | @opened _ _ sl _ _ _ _ _ _ => exact hmap fun _ => sl.record.begun
      | drained _ _ => rfl
      | concluded _ _ _ _ => rfl
    rw [← hturned]
    cases hfollow with
    | dispatched pass _ => exact .inl rfl
    | aborted pass _ => exact .inl (State.cancelledAt_endProc ..)
    | published work report _ => exact .inl ((State.cancelledAt_endProc ..).trans (hmap _))
    | deleted id work report _ => exact .inl (State.cancelledAt_endProc ..)
  | changed c => cases c <;> exact .inl rfl
  | _ => exact .inl rfl

/-- A flag that is set stays set. -/
theorem cancelledAt_step (hstep : step s l = some s') (h : s.cancelledAt i = some true) :
    s'.cancelledAt i = some true := by
  obtain ⟨sl, hslot, -⟩ := Option.map_eq_some_iff.1 h
  rcases flag_step hstep (List.getElem?_eq_some_iff.1 hslot).1 with hsame | ⟨-, hflag⟩
  · rw [hsame, h]
  · exact hflag

/-! ### Calls of cancelled passes -/

/-- A step on a flagged slot hands out no call of a pass. -/
theorem handedOut_step (hstep : step s l = some s') (hflag : s.cancelledAt i = some true)
    (h : s'.HandedOut q i pass k) : s.HandedOut q i pass k := by
  obtain ⟨errand, batch, c, hpass, hq, hc, hout⟩ := h
  have hsame : s.IsWorking q errand i pass batch → s.HandedOut q i pass k := fun hq =>
    ⟨errand, batch, c, hpass, hq, hc, hout⟩
  cases moves_of_step hstep with
  | refused e _ => exact hsame (hq.of_spawn rfl)
  | revised _ _ => exact hsame (State.IsWorking.of_spawn rfl hq)
  | founded _ _ => exact hsame (State.IsWorking.of_spawn rfl hq)
  | triggered id => exact hsame (hq.of_spawn rfl)
  | unknown _ => exact hsame (hq.of_spawn rfl)
  | unlisted _ => exact hsame (State.IsWorking.of_spawn rfl hq)
  | swept => exact hsame (State.isWorking_sweep.1 hq)
  | missed _ _ => exact hsame (hq.of_setStage_other rfl)
  | looked _ _ => exact hsame (hq.of_setStage_other rfl)
  | flagged _ => exact hsame (State.IsWorking.of_setStage_other rfl hq)
  | locked _ _ _ => exact hsame (State.IsWorking.of_setStage_other rfl hq)
  | waited _ _ _ => exact hsame (State.IsWorking.of_setStage_other rfl hq)
  | unplaced _ _ _ _ =>
    have hq₁ := hq.of_endProc
    exact hsame hq₁
  | turned hturn hfollow =>
    have hsame₁ : ∀ {s₁ : State}, s₁.procs = s.procs → s₁.IsWorking q errand i pass batch →
        s.HandedOut q i pass k := fun hprocs hq => hsame (by rwa [State.IsWorking, hprocs] at hq)
    cases hfollow with
    | dispatched pass' _ =>
      rcases hq.of_setStage with ⟨-, hstage, -⟩ | ⟨-, hq⟩
      · -- a plan begins with nothing handed out
        cases hstage
        obtain ⟨x, -, rfl⟩ := List.mem_map.1 (List.mem_of_getElem? hc)
        cases hout
      · exact hsame₁ hturn.procs hq
    | aborted pass' _ => exact hsame₁ hturn.procs hq.of_endProc
    | published work report _ =>
      have hq₁ := hq.of_endProc
      exact hsame₁ hturn.procs hq₁
    | deleted id work report _ => exact hsame₁ hturn.procs hq.of_endProc
  | @issued p errand' j sl pass' batch₀ batch' hproc hslot hhand =>
    rcases hq.of_setStage with ⟨rfl, hstage, old, hold⟩ | ⟨-, hq⟩
    · cases hstage
      cases hproc.symm.trans hold
      have hcancelled : State.isCancelled errand sl = true := by
        rw [State.cancelledAt, hslot] at hflag
        cases errand with
        | delete id => exact absurd rfl (hpass id)
        | _ => exact Option.some.inj hflag
      rw [hcancelled] at hhand
      obtain ⟨-, -, rfl⟩ := Batch.handOut_eq_some hhand
      -- what has no permit is cancelled
      rw [if_pos rfl, List.getElem?_map] at hc
      obtain ⟨c₀, hc₀, rfl⟩ := Option.map_eq_some_iff.1 hc
      exact ⟨errand, batch₀, c₀, hpass, hproc, hc₀, Call.isHandedOut_of_cancel hout⟩
    · exact hsame hq
  | @called l p errand' j pass' batch₀ batch' engine k' hproc hcall =>
    rcases State.IsWorking.of_setStage hq with ⟨rfl, hstage, old, hold⟩ | ⟨-, hq⟩
    · cases hstage
      cases hproc.symm.trans hold
      obtain ⟨c₀, hc₀, hout₀⟩ := (callMove_of_called hcall).handedOut hc hout
      exact ⟨errand, batch₀, c₀, hpass, hproc, hc₀, hout₀⟩
    · exact hsame hq
  | elapsed now _ => exact hsame hq
  | changed c => cases c <;> exact hsame hq

/-- From a flagged slot on, the passes on it hand out nothing more, whatever happens. -/
theorem handedOut_run {labels : List Label} (hrun : run s labels = some s')
    (hflag : s.cancelledAt i = some true) :
    s'.cancelledAt i = some true ∧
      ∀ q pass k, s'.HandedOut q i pass k → s.HandedOut q i pass k := by
  refine run_induction (P := fun _ s' => s'.cancelledAt i = some true ∧
    ∀ q pass k, s'.HandedOut q i pass k → s.HandedOut q i pass k) ⟨hflag, fun _ _ _ h => h⟩ ?_ hrun
  intro labels s₁ l s₂ _ ⟨hflag, h⟩ hstep
  exact ⟨cancelledAt_step hstep hflag, fun q pass k hout =>
    h q pass k (handedOut_step hstep hflag hout)⟩

/-- A call that begins or ends was handed out. -/
theorem handedOut_of_called (hstep : step s l = some s')
    (hl : l = .startCall q k ∨ l = .settleCall q k) (hpass : errand.IsPass)
    (hq : s.IsWorking q errand i pass batch) : s.HandedOut q i pass k := by
  cases moves_of_step hstep with
  | @called l p errand' j pass' batch₀ batch' engine k' hproc hcall =>
    obtain ⟨rfl, rfl⟩ : p = q ∧ k' = k := by
      rcases hcall with ⟨rfl, -⟩ | ⟨rfl, -⟩ <;> rcases hl with hl | hl <;> cases hl <;>
        exact ⟨rfl, rfl⟩
    cases hproc.symm.trans hq
    obtain ⟨c, -, hc, hflight, -⟩ := (callMove_of_called hcall).called
    exact ⟨errand, batch, c, hpass, hq, hc, Call.isHandedOut_of_isInFlight hflight⟩
  | _ => rcases hl with hl | hl <;> cases hl

/-! ### Permits -/

theorem settings_step (hstep : step s l = some s') : s'.settings = s.settings := by
  rcases sameWorld_step hstep with hsame | ⟨c, -, rfl⟩
  · exact hsame.settings
  · cases c <;> rfl

/-- There is nothing to be removed, and no plan is carried out. -/
structure Vacant (s : State) : Prop where
  record : ∀ {i d}, s.recordAt i = some d → d.instances = []
  idle : ∀ {p errand i pass batch}, ¬ s.IsWorking p errand i pass batch

namespace Vacant

theorem mapRecord (h : Vacant s) (j : SlotId) {f : Deployment → Deployment}
    (hf : ∀ d, d.instances = [] → (f d).instances = []) : Vacant (s.mapRecord j f) where
  record := fun {i d} hd => by
    rw [State.recordAt_mapRecord] at hd
    split at hd
    · obtain ⟨d₀, hd₀, rfl⟩ := Option.map_eq_some_iff.1 hd
      exact hf d₀ (h.record hd₀)
    · exact h.record hd
  idle := h.idle (s := s)

theorem modifySlot (h : Vacant s) (j : SlotId) {f : Slot → Slot}
    (hf : ∀ sl, (f sl).record = sl.record) : Vacant (s.modifySlot j f) where
  record := fun hd => h.record ((State.recordAt_modifySlot hf ..).symm.trans hd)
  idle := h.idle (s := s)

theorem found (h : Vacant s) (request : Request) (fresh : String) :
    Vacant (s.found (s.newRecord request fresh)) where
  record := fun {i d} hd => by
    rw [State.recordAt_found] at hd
    split at hd
    · cases hd
      rfl
    · exact h.record hd
  idle := h.idle (s := s)

theorem spawn (h : Vacant s) (errand : Errand) {stage : Stage} (hstage : stage.isWorking = false) :
    Vacant (s.spawn errand stage).1 where
  record := h.record (s := s)
  idle := fun hq => h.idle (hq.of_spawn hstage)

theorem sweep (h : Vacant s) : Vacant s.sweep.1 :=
  State.sweep_induction h fun _ _ _ hs' _ _ => hs'.spawn _ rfl

theorem setStage (h : Vacant s) (p : ProcId) {stage : Stage} (hstage : stage.isWorking = false) :
    Vacant (s.setStage p stage) where
  record := h.record (s := s)
  idle := fun hq => h.idle (hq.of_setStage_other hstage)

theorem endProc (h : Vacant s) (p : ProcId) (j : SlotId) (answer : Answer) :
    Vacant (s.endProc p j answer) where
  record := fun hd => h.record ((State.recordAt_endProc ..).symm.trans hd)
  idle := fun hq => h.idle hq.of_endProc

theorem instances_begun (h : Vacant s) {sl : Slot} (hslot : s.slots[i]? = some sl) :
    sl.record.begun.instances = [] := by
  have hrecord := h.record (State.recordAt_of_slot hslot)
  obtain ⟨state, heq⟩ := sl.record.begun_eq
  rw [heq]
  exact hrecord

/-- A process that takes its turn has nothing to do. -/
theorem turn (h : Vacant s) (hturn : Turn s p errand i s₁ progress) :
    Vacant s₁ ∧ ∀ work report, progress = .finished work report → work.instances = [] := by
  cases hturn with
  | @opened _ _ sl pass selector hproc _ hslot hstart =>
    have hnone := h.instances_begun hslot
    have h₁ : Vacant (s.mapRecord i fun _ => sl.record.begun) := h.mapRecord i fun _ _ => hnone
    refine ⟨⟨h₁.record, h₁.idle⟩, fun work report hlaunch => ?_⟩
    obtain ⟨-, hend⟩ := Pass.Course.launch_finished hlaunch
    rw [(Pass.finished_eq hend).2.1, (Pass.start_planned hstart).2.1]
    exact List.eq_nil_of_sublist_nil (hnone ▸ Pass.dropLost_sublist ..)
  | @drained id _ sl hproc hslot =>
    refine ⟨h, fun work report hlaunch => ?_⟩
    obtain ⟨-, hend⟩ := Pass.Course.launch_finished hlaunch
    rw [(Pass.finished_eq hend).2.1]
    exact h.record (State.recordAt_of_slot hslot)
  | concluded hproc _ _ _ => exact absurd hproc h.idle

end Vacant

/-- Where there are more permits than can be counted, there is nothing to be removed and no pass
under way. -/
def Capped (s : State) : Prop := Batch.maxPermits < (s.batchOf []).permits → Vacant s

theorem Capped.step (h : Capped s) (hstep : Control.step s l = some s') : Capped s' := by
  intro hover'
  have hover : Batch.maxPermits < (s.batchOf []).permits := by
    rwa [State.batchOf, settings_step hstep] at hover'
  have hvacant := h hover
  -- what a pass leaves has no instances, so absorbing it brings none
  have habsorb : ∀ {work : Deployment}, work.instances = [] →
      ∀ d : Deployment, d.instances = [] → (d.absorb work).instances = [] := fun hwork d _ => by
    rw [Deployment.absorb_instances, hwork]
  cases moves_of_step hstep with
  | refused e _ => exact hvacant.spawn _ rfl
  | @revised request _ _ j _ _ =>
    exact (hvacant.mapRecord j (f := (·.update request)) fun _ hd => hd).spawn _ rfl
  | @founded request fresh _ _ => exact (hvacant.found request fresh).spawn _ rfl
  | triggered id => exact hvacant.spawn _ rfl
  | unknown _ => exact hvacant.spawn _ rfl
  | @unlisted id _ _ =>
    have herased : Vacant { s with index := s.index.erase id } := ⟨hvacant.record, hvacant.idle⟩
    exact herased.spawn _ rfl
  | swept => exact hvacant.sweep
  | missed _ _ => exact hvacant.setStage _ rfl
  | looked _ _ => exact hvacant.setStage _ rfl
  | flagged _ => exact (hvacant.modifySlot _ fun _ => by rfl).setStage _ rfl
  | locked _ _ _ => exact (hvacant.modifySlot _ fun _ => by rfl).setStage _ rfl
  | waited _ _ _ => exact (hvacant.modifySlot _ fun _ => by rfl).setStage _ rfl
  | @unplaced p _ j sl work e _ _ hslot hstart =>
    have hnone := hvacant.instances_begun hslot
    have hwork : work.instances = [] := by
      rw [(Pass.start_failed hstart).2.1]
      exact List.eq_nil_of_sublist_nil (hnone ▸ Pass.dropLost_sublist ..)
    exact ((hvacant.mapRecord j fun _ _ => hnone).mapRecord j (habsorb hwork)).endProc ..
  | @turned p errand j s₁ s' progress hturn hfollow =>
    obtain ⟨hvacant₁, hfinished⟩ := hvacant.turn hturn
    cases hfollow with
    | dispatched pass hle =>
      have hsame : (s₁.batchOf pass.plan).permits = (s.batchOf []).permits := by
        rw [State.batchOf, hturn.sameWorld.settings]
        rfl
      exact absurd hover (Nat.not_lt.2 (hsame ▸ hle))
    | aborted pass _ => exact hvacant₁.endProc ..
    | published work report _ =>
      exact (hvacant₁.mapRecord j (habsorb (hfinished work report rfl))).endProc ..
    | deleted id work report _ => exact hvacant₁.endProc ..
  | issued hproc _ _ => exact absurd hproc hvacant.idle
  | called hproc _ => exact absurd hproc hvacant.idle
  | elapsed now _ => exact ⟨hvacant.record, hvacant.idle⟩
  | changed c => cases c <;> exact ⟨hvacant.record, hvacant.idle⟩

theorem State.Fresh.capped (h : s.Fresh) : Capped s := fun _ => by
  refine ⟨fun hd => ?_, fun hp => ?_⟩
  · rw [State.recordAt, h.slots] at hd
    cases hd
  · rw [State.IsWorking, h.procs] at hp
    cases hp

theorem Capped.run (h : Capped s) {labels : List Label} (hrun : Control.run s labels = some s') :
    Capped s' :=
  run_induction (P := fun _ s' => Capped s') h (fun _ _ _ _ _ hs hstep => hs.step hstep) hrun

/-- A process works only where permits can be counted. -/
theorem Capped.permits_le (h : Capped s) (hq : s.IsWorking q errand i pass batch)
    (plan : List Dispatch) : (s.batchOf plan).permits ≤ Batch.maxPermits :=
  Nat.le_of_not_lt fun hover => (h hover).idle hq

/-! ### Outcomes -/

/-- What a pass made of its plan is in the record of the slot, or goes into the next plan. -/
def State.Records (s : State) (q : ProcId) (errand : Errand) (i : SlotId) (work : Deployment) :
    Prop :=
  (∃ d, s.recordAt i = some d ∧ d.instances = work.instances ∧ d.errorLog = work.errorLog) ∨
    ∃ pass batch, s.IsWorking q errand i pass batch ∧ pass.work = work

/-- A process carries out its plan until all calls are over. What is over stays so. -/
theorem working_step (hl : Locked s) (hstep : step s l = some s')
    (hq : s.IsWorking q errand i pass batch) :
    (∃ batch', s'.IsWorking q errand i pass batch' ∧ batch.Keeps batch') ∨
      l = .advance q ∧ batch.isDone := by
  by_cases hactor : l.actor? = some q
  · have hproc := State.procs_setStage_self hq
    cases workStep_of_step hq hstep hactor with
    | issued _ hhand => exact .inl ⟨_, hproc _, Batch.keeps_handOut hhand⟩
    | started hstart => exact .inl ⟨_, hproc _, (Batch.callMove_start hstart).keeps⟩
    | settled hsettle => exact .inl ⟨_, hproc _, (Batch.callMove_settle hsettle).keeps⟩
    | concluded _ hdone _ => exact .inr ⟨rfl, hdone⟩
  · rcases proc_step hl hstep hactor hq with hsame | ⟨j, ⟨⟩, -⟩
    exact .inl ⟨batch, hsame, .refl batch⟩

/-- **The outcomes of a plan are recorded** when the process goes on. -/
theorem records_step (hcapped : Capped s) (hpass : errand.IsPass)
    (hq : s.IsWorking q errand i pass batch) (hdone : batch.isDone)
    (hstep : Control.step s (.advance q) = some s') :
    s'.Records q errand i (pass.foldAll s.wall batch.outcomes).work := by
  cases workStep_of_step hq hstep rfl with
  | issued _ hhand => cases (Batch.handOut_of_isDone hdone _).symm.trans hhand
  | @concluded sl _ hslot _ hfollow =>
    generalize hprogress : pass.conclude s.fleet batch.outcomes = progress at hfollow
    cases hfollow with
    | dispatched pass' _ =>
      obtain ⟨-, rfl⟩ := Pass.proceed_dispatching hprogress
      exact .inr ⟨_, _, State.procs_setStage_self hq _, rfl⟩
    | aborted pass' hover => exact absurd hover (Nat.not_lt.2 (hcapped.permits_le hq _))
    | published work report _ =>
      obtain ⟨target, hfinish⟩ := Pass.proceed_finished hprogress
      have hwork : work.instances = (pass.foldAll s.wall batch.outcomes).work.instances ∧
          work.errorLog = (pass.foldAll s.wall batch.outcomes).work.errorLog := by
        obtain ⟨state, degraded, rfl⟩ := Pass.finish_eq hfinish
        exact ⟨rfl, rfl⟩
      refine .inl ⟨sl.record.absorb work, ?_, ?_, ?_⟩
      · rw [State.recordAt_endProc, State.recordAt_mapRecord, if_pos rfl,
          State.recordAt_of_slot hslot, Option.map_some]
      · rw [Deployment.absorb_instances, hwork.1]
      · rw [Deployment.absorb_errorLog, hwork.2]
    | deleted id work report hdelete => exact absurd hdelete (hpass id)

/-- A process whose calls are over can go on. -/
theorem exists_step_of_isDone (hI : Intact s) (hq : s.IsWorking q errand i pass batch)
    (hdone : batch.isDone) : ∃ s', Control.step s (.advance q) = some s' := by
  obtain ⟨sl, hslot⟩ : ∃ sl, s.slots[i]? = some sl :=
    ⟨_, List.getElem?_eq_getElem (hI.locked.placed_proc hq rfl)⟩
  have hproc : s.procs[q]? = some ⟨errand, .working i pass batch⟩ := hq
  refine ⟨s.follow q errand i (pass.conclude s.fleet batch.outcomes), ?_⟩
  simp only [Control.step, State.advance, hproc, Option.bind_eq_bind, Option.bind_some, hslot,
    State.proceed, Batch.handOut_of_isDone hdone, if_pos hdone]

end

end Control

end FleetControl
