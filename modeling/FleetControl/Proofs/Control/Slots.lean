import FleetControl.Proofs.Control.Tally

/-!
# What a step does to one slot

Of a slot there are a record and, while a process holds it with a plan, a pass under way
(`State.Carries`). `Control.SlotStep` lists what a step can do to the two (`Control.slotStep_of_step`),
so that an invariant of slots is proved from its few cases.
-/

namespace FleetControl

namespace Control

/-- What a step can do to a slot with the record `d` and to the pass under way on it. -/
inductive SlotStep (s : State) (i : SlotId) (d : Deployment) (l : Label) (s' : State) : Prop
  | kept : s.progress? i l = none → s'.recordAt i = some d →
      (∀ q pass, s'.Carries q i pass ↔ s.Carries q i pass) → SlotStep s i d l s'
  | revised {request : Request} {fresh : String} : l = .submit request fresh →
      s'.recordAt i = some (d.update request) →
      (∀ q pass, s'.Carries q i pass ↔ s.Carries q i pass) → SlotStep s i d l s'
  /-- A pass comes to an error where it begins. -/
  | unplaced {work : Deployment} {e : Region.Error} : s.progress? i l = none →
      (∀ q pass, ¬ s.Carries q i pass) → Pass.start s.fleet d.begun = .failed work e →
      s'.recordAt i = some work → (∀ q pass, ¬ s'.Carries q i pass) → SlotStep s i d l s'
  /-- A plan gets under way. -/
  | dispatched {p : ProcId} {errand : Errand} {s₁ : State} {pass : Pass} : l = .advance p →
      errand.IsPass → Turn s p errand i s₁ (.dispatching pass) →
      (s₁.batchOf pass.plan).permits ≤ Batch.maxPermits → s'.recordAt i = s₁.recordAt i →
      (∀ q pass', s'.Carries q i pass' ↔ q = p ∧ pass' = pass) → SlotStep s i d l s'
  /-- There are too many permits for the calls of a plan. -/
  | aborted {p : ProcId} {errand : Errand} {s₁ : State} {pass : Pass} : l = .advance p →
      errand.IsPass → Turn s p errand i s₁ (.dispatching pass) →
      Batch.maxPermits < (s₁.batchOf pass.plan).permits → s'.recordAt i = s₁.recordAt i →
      (∀ q pass', ¬ s'.Carries q i pass') → SlotStep s i d l s'
  /-- A pass comes to its end and is published. -/
  | finished {p : ProcId} {errand : Errand} {s₁ : State} {work : Deployment} {report : Report} :
      l = .advance p → errand.IsPass → Turn s p errand i s₁ (.finished work report) →
      s'.recordAt i = (s₁.recordAt i).map (·.absorb work) →
      (∀ q pass', ¬ s'.Carries q i pass') → SlotStep s i d l s'

section

variable {s s' s₁ : State} {l : Label} {p q : ProcId} {errand : Errand} {stage : Stage}
  {i j : SlotId} {d : Deployment} {progress : Progress} {pass : Pass} {batch : Batch}

/-- A process that carries out no plan and does not take a turn takes no pass further. -/
theorem progress?_other (hproc : s.procs[p]? = some ⟨errand, stage⟩) (h : stage.held? = none) :
    s.progress? i (.advance p) = none :=
  progress?_eq_none hproc fun _ hheld => by cases h.symm.trans hheld

theorem progress?_called {k : Nat} {A B : Prop}
    (h : l = .startCall p k ∧ A ∨ l = .settleCall p k ∧ B) : s.progress? i l = none := by
  rcases h with ⟨rfl, -⟩ | ⟨rfl, -⟩ <;> rfl

theorem progress?_issued {batch' : Batch} {sl : Slot}
    (hproc : s.procs[p]? = some ⟨errand, .working j pass batch⟩) (hslot : s.slots[j]? = some sl)
    (hout : batch.handOut (State.isCancelled errand sl) = some batch') :
    s.progress? i (.advance p) = none := by
  refine progress?_eq_none hproc fun _ hheld sl' hslot' => ?_
  cases hheld
  cases hslot.symm.trans hslot'
  simp [State.next?, hout]

theorem progress?_unplaced {sl : Slot} {work : Deployment} {e : Region.Error}
    (hproc : s.procs[p]? = some ⟨errand, .admitted j⟩) (hslot : s.slots[j]? = some sl)
    (hstart : Pass.start s.fleet sl.record.begun = .failed work e) :
    s.progress? i (.advance p) = none := by
  refine progress?_eq_none hproc fun _ hheld sl' hslot' => ?_
  cases hheld
  cases hslot.symm.trans hslot'
  simp [State.next?, hstart, Pass.Opening.next?]

/-- The turn of a process takes no pass on another slot further, and none at all if it is the end of
a deployment. -/
theorem progress?_turned_other (hturn : Turn s p errand j s₁ progress)
    (hi : j ≠ i ∨ ¬ errand.IsPass) : s.progress? i (.advance p) = none := by
  obtain ⟨stage, hproc, hheld⟩ := hturn.proc
  refine progress?_eq_none hproc fun hpass hheld' => ?_
  cases hheld.symm.trans hheld'
  exact absurd rfl (hi.resolve_right (not_not_intro hpass))

/-- The process has the only pass under way on the slot. -/
theorem carries_dispatched (hl : Locked s) (hproc : s.procs[p]? = some ⟨errand, stage⟩)
    (hheld : stage.held? = some i) (hpass : errand.IsPass) (q : ProcId) (pass' : Pass) :
    (s.setStage p (.working i pass batch)).Carries q i pass' ↔ q = p ∧ pass' = pass := by
  constructor
  · rintro ⟨errand', batch', -, hq⟩
    rcases hq.of_setStage with ⟨rfl, hstage, -⟩ | ⟨hne, hq⟩
    · cases hstage
      exact ⟨rfl, rfl⟩
    · exact absurd ((hq.eq_of_held hl hproc hheld).1 rfl) hne
  · rintro ⟨rfl, rfl⟩
    exact ⟨errand, batch, hpass, State.procs_setStage_self hproc _⟩

theorem Turn.slotStep (hl : Locked s) (hturn : Turn s p errand i s₁ progress)
    (hfollow : Follow s₁ p errand i progress s') (hpass : errand.IsPass) :
    SlotStep s i d (.advance p) s' := by
  obtain ⟨stage, hproc, hheld⟩ := hturn.held
  have hl₁ := hl.turn hturn
  cases hfollow with
  | dispatched pass hle =>
    exact .dispatched rfl hpass hturn hle rfl (carries_dispatched hl₁ hproc hheld hpass)
  | aborted pass hlt =>
    obtain ⟨-, hidle⟩ := rest_endProc hl₁ hproc hheld .aborted
    exact .aborted rfl hpass hturn hlt (State.recordAt_endProc ..) hidle
  | published work report _ =>
    have hl₂ : Locked (s₁.mapRecord i (·.absorb work)) := hl₁.mapRecord ..
    obtain ⟨-, hidle⟩ := rest_endProc hl₂ hproc hheld (State.answerOf errand work report)
    refine .finished rfl hpass hturn ?_ hidle
    rw [State.recordAt_endProc, State.recordAt_mapRecord, if_pos rfl]
  | deleted id work report hdelete => exact absurd hdelete (hpass id)

/-- **A step does one of these to a slot.** -/
theorem slotStep_of_step (hI : Intact s) (hstep : step s l = some s') (hd : s.recordAt i = some d) :
    SlotStep s i d l s' := by
  cases moves_of_step hstep with
  | refused e _ => exact .kept rfl hd (carries_spawn _ rfl)
  | @revised request fresh id j _ _ =>
    have hrecord := State.recordAt_mapRecord (s := s) j i (·.update request)
    by_cases hji : j = i
    · rw [if_pos hji, hd] at hrecord
      exact .revised rfl hrecord (carries_spawn _ rfl)
    · exact .kept rfl (hrecord.trans ((if_neg hji).trans hd)) (carries_spawn _ rfl)
  | @founded request fresh _ _ =>
    have hi : i ≠ s.slots.length := by
      rintro rfl
      simp [State.recordAt] at hd
    have hrecord := State.recordAt_found (s := s) (s.newRecord request fresh) i
    exact .kept rfl (hrecord.trans ((if_neg hi).trans hd)) (carries_spawn _ rfl)
  | triggered id => exact .kept rfl hd (carries_spawn _ rfl)
  | unknown _ => exact .kept rfl hd (carries_spawn _ rfl)
  | unlisted _ => exact .kept rfl hd (carries_spawn _ rfl)
  | swept => exact .kept rfl ((s.recordAt_sweep i).trans hd) carries_sweep
  | missed hproc _ => exact .kept (progress?_other hproc rfl) hd (carries_setStage hproc rfl rfl)
  | looked hproc _ => exact .kept (progress?_other hproc rfl) hd (carries_setStage hproc rfl rfl)
  | flagged hproc =>
    exact .kept (progress?_other hproc rfl) ((State.recordAt_modifySlot (fun _ => by rfl) ..).trans hd)
      (carries_setStage hproc rfl rfl)
  | locked hproc _ _ =>
    exact .kept (progress?_other hproc rfl) ((State.recordAt_modifySlot (fun _ => by rfl) ..).trans hd)
      (carries_setStage hproc rfl rfl)
  | waited hproc _ _ =>
    exact .kept (progress?_other hproc rfl) ((State.recordAt_modifySlot (fun _ => by rfl) ..).trans hd)
      (carries_setStage hproc rfl rfl)
  | @unplaced p errand j sl work e hproc hpass hslot hstart =>
    rw [State.mapRecord_mapRecord, (Pass.Ending.failed hstart).absorb]
    have hl : Locked (s.mapRecord j fun _ => work) := hI.locked.mapRecord ..
    have hproc₁ : (s.mapRecord j fun _ => work).procs[p]? = some ⟨errand, .admitted j⟩ := hproc
    have hquiet := progress?_unplaced (i := i) hproc hslot hstart
    by_cases hji : j = i
    · subst hji
      cases (State.recordAt_of_slot hslot).symm.trans hd
      obtain ⟨-, hidle⟩ := rest_endProc hl hproc₁ rfl (.failed (.region e))
      refine .unplaced hquiet (not_carries_of_admitted hI.locked hproc) hstart ?_ hidle
      rw [State.recordAt_endProc, State.recordAt_mapRecord, if_pos rfl, hd]
      rfl
    · have hnot : ∀ {pass}, ¬ s.Carries p i pass := by
        rintro pass ⟨errand', batch, -, hp⟩
        cases hproc.symm.trans hp
      refine .kept hquiet ?_ fun q pass => carries_endProc hl hproc₁ rfl _ hnot q
      exact (State.recordAt_endProc ..).trans
        (((State.recordAt_mapRecord_or j i _).resolve_right hji).trans hd)
  | @turned p errand j s₁ s' progress hturn hfollow =>
    by_cases hji : j = i ∧ errand.IsPass
    · obtain ⟨rfl, hpass⟩ := hji
      exact hturn.slotStep hI.locked hfollow hpass
    · have hother : j ≠ i ∨ ¬ errand.IsPass := by
        rwa [Ne, ← not_and_or]
      exact .kept (progress?_turned_other hturn hother)
        ((recordAt_turned hturn hfollow hother).trans hd)
        (carries_turned hI.locked hturn hfollow hother)
  | issued hproc hslot hout =>
    exact .kept (progress?_issued hproc hslot hout) hd fun q pass => carries_work hproc _ q i pass
  | @called l p errand j pass batch batch' engine k hproc hcall =>
    exact .kept (progress?_called hcall) hd fun q pass =>
      carries_work (s := { s with engine }) hproc _ q i pass
  | elapsed now _ => exact .kept rfl hd fun _ _ => Iff.rfl
  | changed c => cases c <;> exact .kept rfl hd fun _ _ => Iff.rfl

end

end Control

end FleetControl
