import FleetControl.Proofs.Control.Cancellation
import FleetControl.Proofs.Pass.Drain

/-!
# Draining a slot

The process that deletes a deployment removes the instances that the record has when it takes the
lock. From then on `Control.Draining` holds along every run (`Draining.step`): nobody else changes
the record before the drain begins, each removal is called once, and what the process answers with
is what the removals leave. A process that drains can go on to its end by itself
(`Control.exists_deleted`).
-/

namespace FleetControl

namespace Control

/-- The label begins the call of a process at a place of its plan. -/
def Label.isStart (p : ProcId) (k : Nat) : Label → Bool
  | .startCall q j => q == p && j == k
  | _ => false

/-- How often a process begins the call at a place of its plan. -/
def starts (p : ProcId) (k : Nat) (labels : List Label) : Nat := labels.countP (Label.isStart p k)

/-- A call of a process was over, with a result, at a point of the run. -/
def CameTo (s₀ : State) (labels : List Label) (p : ProcId) (k : Nat) (x : Dispatch)
    (result : Except DispatchError String) : Prop :=
  ∃ before s batch, before <+: labels ∧ run s₀ before = some s ∧ s.batch? p = some batch ∧
    batch.calls[k]? = some ⟨x, .done result⟩

/-- How far the process is that drains a slot with a record, since it took the lock. -/
inductive Draining (s₀ : State) (p : ProcId) (id : String) (i : SlotId) (d : Deployment)
    (labels : List Label) (s : State) : Prop
  | admitted : s.procs[p]? = some ⟨.delete id, .admitted i⟩ → s.recordAt i = some d →
      (∀ k, starts p k labels = 0) → Draining s₀ p id i d labels s
  | working {wall : Nat} {batch : Batch} :
      s.IsWorking p (.delete id) i (Pass.startDrain wall d) batch → batch.Uncancelled →
      (∀ k, starts p k labels = if batch.hasBegun k then 1 else 0) → Draining s₀ p id i d labels s
  | ended {results : List (Except DispatchError String)} {final : Deployment} :
      s.answer? p = some (.deleted final) → Drained d results final →
      (∀ k, starts p k labels = if k < d.instances.length then 1 else 0) →
      (∀ k target result, d.instances[k]? = some target → results[k]? = some result →
        CameTo s₀ labels p k (.remove target false) result) → Draining s₀ p id i d labels s

section

variable {s₀ s s' : State} {labels : List Label} {l : Label} {p : ProcId} {id : String} {i : SlotId}
  {d : Deployment} {k : Nat}

theorem actor?_of_isStart (h : l.isStart p k) : l.actor? = some p := by
  cases l with
  | startCall q j =>
    rw [Label.isStart, Bool.and_eq_true, beq_iff_eq] at h
    exact congrArg some h.1
  | _ => cases h

theorem starts_concat (p : ProcId) (k : Nat) (labels : List Label) (l : Label) :
    starts p k (labels ++ [l]) = starts p k labels + if l.isStart p k then 1 else 0 := by
  rw [starts, List.countP_append, List.countP_singleton, starts]

/-- A step that is not of the process begins none of its calls. -/
theorem starts_of_other (hother : l.actor? ≠ some p) (k : Nat) (labels : List Label) :
    starts p k (labels ++ [l]) = starts p k labels := by
  rw [starts_concat, if_neg fun h => hother (actor?_of_isStart h), Nat.add_zero]

theorem CameTo.append {x : Dispatch} {result : Except DispatchError String}
    (h : CameTo s₀ labels p k x result) (l : Label) : CameTo s₀ (labels ++ [l]) p k x result := by
  obtain ⟨before, s, batch, hbefore, hrest⟩ := h
  exact ⟨before, s, batch, hbefore.trans (List.prefix_append ..), hrest⟩

/-- Steps of others leave a drain where it is. -/
theorem Draining.other (h : Draining s₀ p id i d labels s) (hI : Intact s) (hlisted : ¬ s.Listed i)
    (hstep : step s l = some s') (hother : l.actor? ≠ some p) :
    Draining s₀ p id i d (labels ++ [l]) s' := by
  have hstarts := starts_of_other hother
  cases h with
  | admitted hp hd hnone =>
    rcases proc_step hI.locked hstep hother hp with hsame | ⟨_, ⟨⟩, -⟩
    refine .admitted hsame ?_ fun k => (hstarts k labels).trans (hnone k)
    rcases record_step hstep (hI.locked.placed_proc hp rfl) with hrecord | ⟨hi, -⟩ | ⟨q, rfl, hq⟩
    · rw [hrecord, hd]
    · exact absurd hi hlisted
    · -- nobody else holds the slot
      obtain ⟨stage, hstage, hheld⟩ := Option.bind_eq_some_iff.1 hq
      cases hI.locked.holder_unique (State.stageAt_of_proc hp) hstage rfl hheld
      exact absurd rfl hother
  | working hp hbatch hbegun =>
    rcases proc_step hI.locked hstep hother hp with hsame | ⟨_, ⟨⟩, -⟩
    exact .working hsame hbatch fun k => (hstarts k labels).trans (hbegun k)
  | ended hp hdrained hcalled hcame =>
    exact .ended (answer_step hI.locked hstep hp) hdrained
      (fun k => (hstarts k labels).trans (hcalled k))
      fun k target result ht hr => (hcame k target result ht hr).append l

/-- The process begins to drain. -/
theorem Draining.begin (hI : Intact s) (hcapped : Capped s)
    (hp : s.procs[p]? = some ⟨.delete id, .admitted i⟩) (hd : s.recordAt i = some d)
    (hnone : ∀ k, starts p k labels = 0) (hstep : step s l = some s')
    (hactor : l.actor? = some p) : Draining s₀ p id i d (labels ++ [l]) s' := by
  obtain ⟨rfl, sl, hslot, hfollow⟩ := drained_of_step hp hstep hactor
  cases (State.recordAt_of_slot hslot).symm.trans hd
  have hadvance : ∀ k, starts p k (labels ++ [.advance p]) = 0 := fun k => by
    rw [starts_concat, hnone]
    rfl
  generalize hlaunch : (Pass.startDrain s.wall sl.record).launch s.fleet = progress at hfollow
  cases hfollow with
  | dispatched pass _ =>
    obtain ⟨-, rfl⟩ := Pass.launch_startDrain_dispatching hlaunch
    refine .working (State.procs_setStage_self hp _) (Batch.uncancelled_ofPlan ..) fun k => ?_
    rw [hadvance, State.batchOf, Batch.hasBegun_ofPlan]
    rfl
  | aborted pass hover =>
    -- where permits cannot be counted there is nothing to remove
    obtain ⟨hsome, -⟩ := Pass.launch_startDrain_dispatching hlaunch
    exact absurd ((hcapped hover).record hd) hsome
  | published work report hpass => exact absurd rfl (hpass id)
  | deleted _ work report _ =>
    obtain ⟨hempty, hdrained⟩ := Pass.drained_of_launch hlaunch
    refine .ended (answer?_endProc hI.locked hp rfl _) hdrained ?_ ?_
    · intro k
      rw [hadvance, hempty]
      rfl
    · intro k target result htarget
      rw [hempty] at htarget
      cases htarget

/-- The process carries its removals out. -/
theorem Draining.work {wall : Nat} {batch : Batch} (hI : Intact s) (hrun : run s₀ labels = some s)
    (hd : (d.instances.map (·.id)).Nodup)
    (hp : s.IsWorking p (.delete id) i (Pass.startDrain wall d) batch) (hbatch : batch.Uncancelled)
    (hbegun : ∀ k, starts p k labels = if batch.hasBegun k then 1 else 0)
    (hstep : step s l = some s') (hactor : l.actor? = some p) :
    Draining s₀ p id i d (labels ++ [l]) s' := by
  have hproc := State.procs_setStage_self hp
  have hadvance : ∀ k, starts p k (labels ++ [.advance p]) = if batch.hasBegun k then 1 else 0 :=
    fun k => (starts_concat ..).trans (hbegun k)
  cases workStep_of_step hp hstep hactor with
  | issued _ hhand =>
    obtain ⟨hbatch', hsame⟩ := Batch.uncancelled_handOut hhand hbatch
    exact .working (hproc _) hbatch' fun k => by rw [hadvance, hsame]
  | @started j batch' engine hstart =>
    obtain ⟨hfirst, hbatch', hnow⟩ := Batch.uncancelled_start hstart hbatch
    refine .working (hproc _) hbatch' fun k => ?_
    rw [starts_concat, hbegun, hnow, Label.isStart]
    by_cases hk : k = j
    · subst hk
      rw [hfirst]
      simp
    · rw [beq_false_of_ne hk, beq_false_of_ne (Ne.symm hk)]
      simp
  | settled hsettle =>
    obtain ⟨hbatch', hsame⟩ := Batch.uncancelled_settle hsettle hbatch
    refine .working (hproc _) hbatch' fun k => ?_
    rw [starts_concat, hbegun, hsame]
    rfl
  | @concluded sl _ _ hdone hfollow =>
    have hplan := (Batch.outcomes_dispatches hdone).trans (hI.plans hp)
    have hlength : batch.calls.length = d.instances.length := by
      have := congrArg List.length (hI.plans hp)
      rwa [Batch.dispatches, List.length_map, Pass.startDrain, List.length_map] at this
    generalize hprogress : (Pass.startDrain wall d).conclude s.fleet batch.outcomes = progress
      at hfollow
    cases hfollow with
    | dispatched pass _ =>
      obtain ⟨hphase, -⟩ := Pass.proceed_dispatching hprogress
      cases hphase
    | aborted pass _ =>
      obtain ⟨hphase, -⟩ := Pass.proceed_dispatching hprogress
      cases hphase
    | published work report hpass => exact absurd rfl (hpass id)
    | deleted _ work report _ =>
      have hcalled : ∀ o ∈ batch.outcomes, o.result ≠ .error .cancelled := by
        intro o ho hresult
        obtain ⟨k, hk⟩ := List.mem_iff_getElem?.1 ho
        have hcall := List.mem_of_getElem? (Batch.outcomes_getElem? hdone hk)
        have hnot := hbatch.calls _ hcall
        rw [hresult] at hnot
        cases hnot
      refine .ended (answer?_endProc hI.locked hp rfl _)
        (Pass.drained_of_conclude hd hplan hcalled hprogress) (fun k => ?_) ?_
      · rw [hadvance, Batch.hasBegun_of_isDone hdone, hlength]
        simp
      · intro k target result htarget hresult
        rw [List.getElem?_map] at hresult
        obtain ⟨o, ho, rfl⟩ := Option.map_eq_some_iff.1 hresult
        have hcall := Batch.outcomes_getElem? hdone ho
        -- the call at this place is the removal of the instance at this place
        have hdispatch : batch.dispatches[k]? = some o.dispatch := by
          rw [Batch.dispatches, List.getElem?_map, hcall]
          rfl
        rw [hI.plans hp, Pass.startDrain, List.getElem?_map, htarget] at hdispatch
        have hremove : Dispatch.remove target false = o.dispatch := Option.some.inj hdispatch
        refine ⟨labels, s, batch, List.prefix_append .., hrun, ?_, ?_⟩
        · rw [State.batch?, show s.procs[p]? = _ from hp]
        · rw [hcall, hremove]

/-- **A drain goes on to its end**, whatever happens meanwhile. -/
theorem Draining.step (h : Draining s₀ p id i d labels s) (hrun : run s₀ labels = some s)
    (hI : Intact s) (hcapped : Capped s) (hlisted : ¬ s.Listed i)
    (hd : (d.instances.map (·.id)).Nodup) (hstep : Control.step s l = some s') :
    Draining s₀ p id i d (labels ++ [l]) s' := by
  by_cases hactor : l.actor? = some p
  · cases h with
    | admitted hp hrecord hnone => exact .begin hI hcapped hp hrecord hnone hstep hactor
    | working hp hbatch hbegun => exact .work hI hrun hd hp hbatch hbegun hstep hactor
    | ended hp _ _ _ =>
      obtain ⟨errand, hproc⟩ := State.answer?_eq_some.1 hp
      exact absurd hproc (proc_of_actor hstep hactor _)
  · exact h.other hI hlisted hstep hactor

/-! ### A drain can go on to its end -/

/-- The process goes from one state to the other by steps of its own, while time goes by. -/
def ReachesAlone (p : ProcId) (s s' : State) : Prop :=
  ∃ labels, run s labels = some s' ∧ ∀ l ∈ labels, l.actor? = some p ∨ ∃ now, l = .elapse now

theorem ReachesAlone.refl (p : ProcId) (s : State) : ReachesAlone p s s :=
  ⟨[], rfl, fun _ hl => absurd hl List.not_mem_nil⟩

theorem ReachesAlone.cons {s₁ : State} (h : ReachesAlone p s₁ s') (hstep : step s l = some s₁)
    (hl : l.actor? = some p ∨ ∃ now, l = .elapse now) : ReachesAlone p s s' := by
  obtain ⟨labels, hrun, hlabels⟩ := h
  refine ⟨l :: labels, ?_, List.forall_mem_cons.2 ⟨hl, hlabels⟩⟩
  rw [run_cons, hstep, Option.bind_some, hrun]

/-- A process that drains can make the moves that its batch can make. -/
theorem exists_step_of_move {pass : Pass} {batch batch' : Batch} (hI : Intact s)
    (hp : s.IsWorking p (.delete id) i pass batch) (h : batch.Move s.now s.engine batch') :
    ∃ l s', step s l = some s' ∧ l.actor? = some p ∧
      s'.IsWorking p (.delete id) i pass batch' := by
  obtain ⟨sl, hslot⟩ : ∃ sl, s.slots[i]? = some sl :=
    ⟨_, List.getElem?_eq_getElem (hI.locked.placed_proc hp rfl)⟩
  have hproc : s.procs[p]? = some ⟨.delete id, .working i pass batch⟩ := hp
  cases h with
  | handOut hhand =>
    refine ⟨.advance p, _, ?_, rfl, State.procs_setStage_self hp _⟩
    simp only [Control.step, State.advance, hproc, Option.bind_eq_bind, Option.bind_some, hslot,
      State.proceed, State.isCancelled, hhand]
  | @start engine k hstart =>
    refine ⟨.startCall p k, ({ s with engine } : State).setStage p (.working i pass batch'), ?_,
      rfl, State.procs_setStage_self hp _⟩
    simp only [Control.step, State.startCall, State.moveCall, hproc, Option.bind_eq_bind,
      Option.bind_some, hstart, Option.pure_def]
  | @settle engine k hsettle =>
    refine ⟨.settleCall p k, ({ s with engine } : State).setStage p (.working i pass batch'), ?_,
      rfl, State.procs_setStage_self hp _⟩
    simp only [Control.step, State.settleCall, State.moveCall, hproc, Option.bind_eq_bind,
      Option.bind_some, hsettle, Option.pure_def]

theorem exists_deleted_of_working {pass : Pass} {batch : Batch} (hI : Intact s)
    (hp : s.IsWorking p (.delete id) i pass batch) (hphase : pass.phase = .drain)
    (hpermits : 0 < batch.permits) :
    ∃ s' final, ReachesAlone p s s' ∧ s'.answer? p = some (.deleted final) := by
  induction hn : batch.weight using Nat.strong_induction_on generalizing s batch with
  | _ n ih =>
    by_cases hdone : batch.isDone
    · obtain ⟨s', hstep⟩ := exists_step_of_isDone hI hp hdone
      suffices hanswer : ∃ final, s'.answer? p = some (.deleted final) by
        obtain ⟨final, hanswer⟩ := hanswer
        exact ⟨s', final, (ReachesAlone.refl p s').cons hstep (.inl rfl), hanswer⟩
      cases workStep_of_step hp hstep rfl with
      | issued _ hhand => cases (Batch.handOut_of_isDone hdone _).symm.trans hhand
      | concluded _ _ hfollow =>
        generalize hprogress : pass.conclude s.fleet batch.outcomes = progress at hfollow
        have hdrain : ∀ {pass'}, progress ≠ .dispatching pass' := by
          rintro pass' rfl
          cases (Pass.proceed_dispatching hprogress).1.symm.trans hphase
        cases hfollow with
        | dispatched pass' _ => exact absurd rfl hdrain
        | aborted pass' _ => exact absurd rfl hdrain
        | published work report hpass => exact absurd rfl (hpass id)
        | deleted _ work report _ => exact ⟨work, answer?_endProc hI.locked hp rfl _⟩
    · -- time goes by until the batch has a move
      obtain ⟨due, hmove⟩ := Batch.exists_move hpermits (Bool.not_eq_true _ ▸ hdone) s.engine
      obtain ⟨batch', hmove⟩ := hmove (max s.now due) (Nat.le_max_right ..)
      have helapse : step s (.elapse (max s.now due)) = some { s with now := max s.now due } :=
        if_pos (Nat.le_max_left ..)
      have hI₁ := hI.step helapse
      have hp₁ : State.IsWorking { s with now := max s.now due } p (.delete id) i pass batch := hp
      obtain ⟨l, s₂, hstep, hactor, hp₂⟩ := exists_step_of_move hI₁ hp₁ hmove
      obtain ⟨hlt, hsame⟩ := hmove.weight_lt
      obtain ⟨s', final, hreaches, hanswer⟩ :=
        ih _ (hn ▸ hlt) (hI₁.step hstep) hp₂ (hsame ▸ hpermits) rfl
      exact ⟨s', final, (hreaches.cons hstep (.inl hactor)).cons helapse (.inr ⟨_, rfl⟩), hanswer⟩

/-- **A drain is never stuck**: the process can answer by steps of its own. -/
theorem Draining.exists_deleted (h : Draining s₀ p id i d labels s) (hI : Intact s)
    (hcapped : Capped s) :
    ∃ s' final, ReachesAlone p s s' ∧ s'.answer? p = some (.deleted final) := by
  cases h with
  | admitted hp hrecord _ =>
    obtain ⟨sl, hslot⟩ : ∃ sl, s.slots[i]? = some sl :=
      ⟨_, List.getElem?_eq_getElem (hI.locked.placed_proc hp rfl)⟩
    have hadvance : Control.step s (.advance p) = some (s.startDrain p (.delete id) i sl) := by
      simp only [Control.step, State.advance, hp, Option.bind_eq_bind, Option.bind_some, hslot]
      rfl
    generalize s.startDrain p (.delete id) i sl = s₁ at hadvance
    have hI₁ := hI.step hadvance
    obtain ⟨-, sl, hslot, hfollow⟩ := drained_of_step hp hadvance rfl
    cases (State.recordAt_of_slot hslot).symm.trans hrecord
    generalize hlaunch : (Pass.startDrain s.wall sl.record).launch s.fleet = progress at hfollow
    suffices hend : ∃ s' final, ReachesAlone p s₁ s' ∧ s'.answer? p = some (.deleted final) by
      obtain ⟨s', final, hreaches, hanswer⟩ := hend
      exact ⟨s', final, hreaches.cons hadvance (.inl rfl), hanswer⟩
    cases hfollow with
    | dispatched pass _ =>
      obtain ⟨-, rfl⟩ := Pass.launch_startDrain_dispatching hlaunch
      exact exists_deleted_of_working hI₁ (State.procs_setStage_self hp _) rfl
        (Batch.uncancelled_ofPlan ..).permits
    | aborted pass hover =>
      obtain ⟨hsome, -⟩ := Pass.launch_startDrain_dispatching hlaunch
      exact absurd ((hcapped hover).record hrecord) hsome
    | published work report hpass => exact absurd rfl (hpass id)
    | deleted _ work report _ =>
      exact ⟨_, work, .refl .., answer?_endProc hI.locked hp rfl _⟩
  | working hp hbatch _ => exact exists_deleted_of_working hI hp rfl hbatch.permits
  | ended hp _ _ _ => exact ⟨s, _, .refl .., hp⟩

end

end Control

end FleetControl
