import FleetControl.Proofs.Control.Bounds
import FleetControl.Proofs.Control.Published
import FleetControl.Proofs.Control.Reports
import FleetControl.Proofs.Control.Slots
import FleetControl.Proofs.Pass.ErrorLog

/-!
# The error log in a run

Of a run, `Control.passesOn` lists the passes that begin on a slot and `Control.failuresBy` what is
noted of the calls of a process, plan after plan and in the order of each plan, whatever the order in
which the calls end.

A pass notes its failures in a copy of the record, and the record takes the copy back when the pass is
over. There is one pass at a time on a slot, so the passes that are over are those before the one
under way (`Control.Flight.answered`), and the copy has what they noted and what the pass has noted
itself (`Control.Recorded`). Requests that come meanwhile do not change this.

So the log of a record is the end of what the passes on its slot noted, pass by pass
(`Control.error_log_windows`).
-/

namespace FleetControl

namespace Control

/-! ### What a run shows of the failures -/

/-- The process whose pass begins. -/
def Event.pass? : Event → Option ProcId
  | .request _ => none
  | .pass p => some p

/-- The process whose pass begins on a slot by a step. -/
def State.opened? (s : State) (i : SlotId) (l : Label) : Option ProcId :=
  (s.event? i l).bind Event.pass?

/-- The processes whose passes begin on a slot in a run, in order. -/
def passesOn (i : SlotId) (s₀ : State) (labels : List Label) : List ProcId :=
  (history i s₀ labels).filterMap Event.pass?

/-- The failures that are noted of the outcomes with which the process goes on in a step. -/
def State.failed? (s : State) (p : ProcId) (l : Label) : Option (List Failure) :=
  (s.taken? p l).map fun outs => outs.filterMap (Outcome.noted? s.wall)

/-- The failures that are noted of the calls of a process in a run. -/
def failuresBy (p : ProcId) (s₀ : State) (labels : List Label) : List Failure :=
  (gather (·.failed? p) s₀ labels).flatten

section

variable {s₀ s s' s₁ : State} {labels : List Label} {l : Label} {p q : ProcId} {errand : Errand}
  {stage : Stage} {i j : SlotId} {d d' : Deployment} {pass : Pass} {batch : Batch}
  {progress : Progress} {past : List ProcId} {events : List Event} {outs : List Outcome}

theorem passesOn_concat (h : run s₀ labels = some s) (i : SlotId) (l : Label) :
    passesOn i s₀ (labels ++ [l]) =
      passesOn i s₀ labels ++ (s.opened? i l).toList := by
  rw [passesOn, history_append h, List.filterMap_append, passesOn, State.opened?]
  cases s.event? i l with
  | none => rfl
  | some e => cases e <;> rfl

theorem failuresBy_concat (h : run s₀ labels = some s) (p : ProcId) (l : Label) :
    failuresBy p s₀ (labels ++ [l]) = failuresBy p s₀ labels ++ (s.failed? p l).toList.flatten := by
  rw [failuresBy, gather_concat _ h, List.flatten_append, failuresBy]

/-- A pass begins when its process has the lock and takes a turn. -/
theorem opened?_eq_some (h : s.opened? i l = some p) :
    l = .advance p ∧ ∃ errand, errand.IsPass ∧ s.procs[p]? = some ⟨errand, .admitted i⟩ := by
  obtain ⟨e, hevent, he⟩ := Option.bind_eq_some_iff.1 h
  cases e with
  | request request => cases he
  | pass q =>
    cases he
    exact event?_eq_pass hevent

/-- A process goes on with the outcomes of a batch whose calls are all over. -/
theorem taken?_eq_some (h : s.taken? p l = some outs) : l = .advance p ∧
    ∃ errand i pass batch, s.IsWorking p errand i pass batch ∧ batch.isDone ∧
      batch.outcomes = outs := by
  cases l with
  | advance q =>
    simp only [State.taken?] at h
    split at h
    · next hq =>
      obtain ⟨batch, hbatch, houts⟩ := Option.map_eq_some_iff.1 h
      obtain ⟨hbatch, hdone⟩ := Option.filter_eq_some_iff.1 hbatch
      obtain ⟨errand, i, pass, hp⟩ := batch?_eq_some.1 hbatch
      exact ⟨congrArg _ hq, errand, i, pass, batch, hp, hdone, houts⟩
    · cases h
  | _ => cases h

/-- Nothing is noted of a process unless it goes on after a plan. -/
theorem failed?_eq_none (h : ∀ {errand i pass batch}, l = .advance p →
    s.IsWorking p errand i pass batch → ¬ batch.isDone) : s.failed? p l = none := by
  cases htaken : s.taken? p l with
  | none => rw [State.failed?, htaken, Option.map_none]
  | some outs =>
    obtain ⟨hl, errand, i, pass, batch, hp, hdone, -⟩ := taken?_eq_some htaken
    exact absurd hdone (h hl hp)

theorem failed?_of_idle (hproc : s.procs[p]? = some ⟨errand, stage⟩)
    (hstage : stage.isWorking = false) (l : Label) : s.failed? p l = none :=
  failed?_eq_none fun _ hp => by
    cases hproc.symm.trans hp
    cases hstage

theorem failuresBy_of_failed? (hrun : run s₀ labels = some s) (h : s.failed? p l = none) :
    failuresBy p s₀ (labels ++ [l]) = failuresBy p s₀ labels := by
  rw [failuresBy_concat hrun, h]
  exact List.append_nil _

/-! ### Processes that have not started -/

/-- The process has a plan under way or is over. -/
def State.Started (s : State) (p : ProcId) : Prop :=
  (∃ answer, s.answer? p = some answer) ∨
    ∃ errand i pass batch, s.IsWorking p errand i pass batch

theorem State.Started.step (h : s.Started p) (hl : Locked s) (hstep : Control.step s l = some s') :
    s'.Started p := by
  obtain ⟨answer, hanswer⟩ | ⟨errand, i, pass, batch, hp⟩ := h
  · exact .inl ⟨answer, answer_step hl hstep hanswer⟩
  by_cases hactor : l.actor? = some p
  · have hproc := State.procs_setStage_self hp
    cases workStep_of_step hp hstep hactor with
    | issued _ _ => exact .inr ⟨errand, i, pass, _, hproc _⟩
    | started _ => exact .inr ⟨errand, i, pass, _, hproc _⟩
    | settled _ => exact .inr ⟨errand, i, pass, _, hproc _⟩
    | concluded _ _ hfollow =>
      refine (ended_or_working hl hp rfl hfollow).imp_right ?_
      rintro ⟨pass', -, hworking⟩
      exact ⟨errand, i, pass', _, hworking⟩
  · rcases proc_step hl hstep hactor hp with hsame | ⟨_, ⟨⟩, -⟩
    exact .inr ⟨errand, i, pass, batch, hsame⟩

/-- Nothing has been noted of a process that has not started. -/
theorem failuresBy_eq_nil (h₀ : Intact s₀) (hrun : run s₀ labels = some s) (hp : ¬ s.Started p) :
    failuresBy p s₀ labels = [] := by
  refine run_induction (P := fun labels s => ∀ p, ¬ s.Started p → failuresBy p s₀ labels = [])
    (fun _ _ => rfl) ?_ hrun p hp
  intro labels s l s' hrun ih hstep p hp
  have hbefore : ¬ s.Started p := fun h => hp (h.step (h₀.run hrun).locked hstep)
  have hnone : s.failed? p l = none :=
    failed?_eq_none fun _ hworking => absurd (.inr ⟨_, _, _, _, hworking⟩) hbefore
  rw [failuresBy_of_failed? hrun hnone, ih p hbefore]

/-- Nothing is noted of a pass by the step in which it begins. -/
theorem failuresBy_admitted (h₀ : Intact s₀) (hrun : run s₀ labels = some s)
    (hproc : s.procs[p]? = some ⟨errand, .admitted i⟩) (l : Label) :
    failuresBy p s₀ (labels ++ [l]) = [] := by
  have hidle : ¬ s.Started p := by
    rintro (⟨answer, hanswer⟩ | ⟨errand', j, pass, batch, hp⟩)
    · obtain ⟨errand', hended⟩ := State.answer?_eq_some.1 hanswer
      cases hproc.symm.trans hended
    · cases hproc.symm.trans hp
  rw [failuresBy_of_failed? hrun (failed?_of_idle hproc rfl l), failuresBy_eq_nil h₀ hrun hidle]

theorem flatMap_opened (h₀ : Intact s₀) (hrun : run s₀ labels = some s) (i : SlotId) (l : Label) :
    (s.opened? i l).toList.flatMap (failuresBy · s₀ (labels ++ [l])) = [] := by
  cases hopened : s.opened? i l with
  | none => rfl
  | some p =>
    obtain ⟨-, errand, -, hproc⟩ := opened?_eq_some hopened
    rw [Option.toList_some, List.flatMap_singleton, failuresBy_admitted h₀ hrun hproc]

/-! ### Passes that are over -/

/-- The passes of a replay are over. -/
theorem Replay.answered {answers : ProcId → Option Answer} (h : Replay answers events d) :
    ∀ q ∈ events.filterMap Event.pass?, ∃ answer, answers q = some answer := by
  induction h with
  | founded => simp [Event.pass?]
  | revised request _ ih => simpa [Event.pass?] using ih
  | passed _ _ hanswer _ ih =>
    rw [List.filterMap_append, List.forall_mem_append]
    exact ⟨ih, by simpa [Event.pass?] using ⟨_, hanswer⟩⟩
  | aborted _ hanswer ih =>
    rw [List.filterMap_append, List.forall_mem_append]
    exact ⟨ih, by simpa [Event.pass?] using ⟨_, hanswer⟩⟩

/-- The pass under way is the last, and those before it are over. -/
theorem Flight.passes {answers : ProcId → Option Answer} {p₀ : Pass}
    (h : Flight answers p p₀ events d) : ∃ past, events.filterMap Event.pass? = past ++ [p] ∧
      ∀ q ∈ past, ∃ answer, answers q = some answer := by
  cases h with
  | @intro before _ _ _ requests hbefore _ =>
    refine ⟨before.filterMap Event.pass?, ?_, hbefore.answered⟩
    have hpass : Event.pass? (.pass p) = some p := rfl
    have hrequests : (requests.map Event.request).filterMap Event.pass? = [] := by
      simp [Event.pass?]
    rw [List.filterMap_append, List.filterMap_cons_some hpass, hrequests]

/-- Nothing more is noted of passes that are over. -/
theorem flatMap_answered (hrun : run s₀ labels = some s)
    (hover : ∀ q ∈ past, ∃ answer, s.answer? q = some answer) (l : Label) :
    past.flatMap (failuresBy · s₀ (labels ++ [l])) = past.flatMap (failuresBy · s₀ labels) := by
  refine List.flatMap_congr fun q hq => ?_
  obtain ⟨answer, hanswer⟩ := hover q hq
  obtain ⟨errand, hended⟩ := State.answer?_eq_some.1 hanswer
  exact failuresBy_of_failed? hrun (failed?_of_idle hended rfl l)

/-- With no pass under way, all are over. -/
theorem Serial.flatMap_rest (h : Serial s i (history i s₀ labels) d)
    (hrun : Control.run s₀ labels = some s) (hidle : ∀ p pass, ¬ s.Carries p i pass) (l : Label) :
    (passesOn i s₀ labels).flatMap (failuresBy · s₀ (labels ++ [l])) =
      (passesOn i s₀ labels).flatMap (failuresBy · s₀ labels) :=
  flatMap_answered hrun (h.rest hidle).answered l

/-- With a pass under way, those before it are over. -/
theorem Serial.flatMap_flight (h : Serial s i (history i s₀ labels) d)
    (hrun : Control.run s₀ labels = some s) (hp : s.Carries p i pass)
    (hpasses : passesOn i s₀ labels = past ++ [p]) (l : Label) :
    past.flatMap (failuresBy · s₀ (labels ++ [l])) = past.flatMap (failuresBy · s₀ labels) := by
  obtain ⟨p₀, -, hflight, -⟩ := h.flight hp
  obtain ⟨before, hbefore, hanswered⟩ := hflight.passes
  obtain ⟨rfl, -⟩ := List.append_inj' (hpasses.symm.trans hbefore) rfl
  exact flatMap_answered hrun hanswered l

/-! ### Records and copies -/

/-- The record has the failures of the passes on its slot that are over, and the copy of a pass under
way has those that the pass has noted as well. -/
structure Recorded (s₀ : State) (labels : List Label) (s : State) (i : SlotId) (d : Deployment) :
    Prop where
  rest : (∀ p pass, ¬ s.Carries p i pass) →
    d.Logs ((passesOn i s₀ labels).flatMap (failuresBy · s₀ labels))
  flight : ∀ {p pass}, s.Carries p i pass → ∃ past, passesOn i s₀ labels = past ++ [p] ∧
    d.Logs (past.flatMap (failuresBy · s₀ labels)) ∧
    pass.work.Logs ((past ++ [p]).flatMap (failuresBy · s₀ labels))

/-- No other pass begins while one is under way. -/
theorem opened?_eq_none (hl : Locked s) (hp : s.Carries p i pass) (l : Label) :
    s.opened? i l = none := by
  refine Option.eq_none_iff_forall_ne_some.2 fun q hq => ?_
  obtain ⟨-, errand, -, hproc⟩ := opened?_eq_some hq
  exact not_carries_of_admitted hl hproc p pass hp

/-- Nothing is noted of a pass that is not taken further. -/
theorem failuresBy_kept (hl : Locked s) (hrun : run s₀ labels = some s) (hp : s.Carries p i pass)
    (hprogress : s.progress? i l = none) :
    failuresBy p s₀ (labels ++ [l]) = failuresBy p s₀ labels := by
  obtain ⟨errand, batch, hpass, hworking⟩ := hp
  refine failuresBy_of_failed? hrun (failed?_eq_none fun hadvance hworking' hdone => ?_)
  subst hadvance
  cases hworking.symm.trans hworking'
  obtain ⟨sl, hslot⟩ : ∃ sl, s.slots[i]? = some sl :=
    ⟨_, List.getElem?_eq_getElem (hl.placed_proc hworking rfl)⟩
  have hturn := Turn.concluded hworking hslot (Batch.handOut_of_isDone hdone _) hdone
  cases hprogress.symm.trans (progress?_turned hturn hpass)

/-- A step that takes no pass on the slot further notes nothing. -/
theorem Recorded.quiet (h : Recorded s₀ labels s i d) (h₀ : Intact s₀)
    (hrun : run s₀ labels = some s) (hserial : Serial s i (history i s₀ labels) d)
    (hprogress : s.progress? i l = none) (hlogs : ∀ noted, d.Logs noted → d'.Logs noted)
    (hcarries : ∀ q pass, s'.Carries q i pass ↔ s.Carries q i pass) :
    Recorded s₀ (labels ++ [l]) s' i d' := by
  have hI := h₀.run hrun
  constructor
  · intro hidle
    have hidle : ∀ q pass, ¬ s.Carries q i pass := fun q pass => mt (hcarries q pass).2 (hidle q pass)
    rw [passesOn_concat hrun, List.flatMap_append, flatMap_opened h₀ hrun, List.append_nil,
      hserial.flatMap_rest hrun hidle]
    exact hlogs _ (h.rest hidle)
  · intro p pass hp'
    have hp := (hcarries p pass).1 hp'
    obtain ⟨past, hpasses, hd, hwork⟩ := h.flight hp
    have hover := hserial.flatMap_flight hrun hp hpasses l
    have hsame := failuresBy_kept hI.locked hrun hp hprogress
    refine ⟨past, ?_, ?_, ?_⟩
    · rw [passesOn_concat hrun, opened?_eq_none hI.locked hp, hpasses]
      exact List.append_nil _
    · rw [hover]
      exact hlogs _ hd
    · rw [List.flatMap_append, hover, List.flatMap_singleton, hsame]
      rwa [List.flatMap_append, List.flatMap_singleton] at hwork

/-- A process that takes a turn with its pass notes the failures of the plan that is carried out in
the copy, wherever the pass comes to. -/
theorem Recorded.turned (h : Recorded s₀ labels s i d) (h₀ : Intact s₀)
    (hrun : run s₀ labels = some s) (hserial : Serial s i (history i s₀ labels) d)
    (hturn : Turn s p errand i s₁ progress) (hpass : errand.IsPass) (hd : s.recordAt i = some d) :
    ∃ past d₁, passesOn i s₀ (labels ++ [.advance p]) = past ++ [p] ∧ s₁.recordAt i = some d₁ ∧
      d₁.Logs (past.flatMap (failuresBy · s₀ (labels ++ [.advance p]))) ∧
      progress.work.Logs ((past ++ [p]).flatMap (failuresBy · s₀ (labels ++ [.advance p]))) ∧
      (failuresBy p s₀ (labels ++ [.advance p]) = [] ∨
        ∃ pass batch, s.IsWorking p errand i pass batch) := by
  have hI := h₀.run hrun
  cases hturn with
  | @opened _ _ sl pass selector hproc _ hslot hstart =>
    cases (State.recordAt_of_slot hslot).symm.trans hd
    have hidle := not_carries_of_admitted hI.locked hproc
    have hnone := failuresBy_admitted h₀ hrun hproc (.advance p)
    have hover := hserial.flatMap_rest hrun hidle (.advance p)
    have hbegun := (h.rest hidle).begun
    refine ⟨passesOn i s₀ labels, sl.record.begun, ?_, ?_, ?_, ?_, .inl hnone⟩
    · rw [passesOn_concat hrun, State.opened?, event?_admitted hproc hpass, if_pos rfl]
      rfl
    · exact State.recordAt_mapRecord_self hd fun _ => sl.record.begun
    · rwa [hover]
    · rw [List.flatMap_append, hover, List.flatMap_singleton, hnone, List.append_nil]
      exact Pass.logs_launch _ (Pass.logs_of_start hstart hbegun)
  | @drained id _ _ _ _ => exact absurd rfl (hpass id)
  | @concluded _ _ sl pass batch hworking hslot _ hdone =>
    have hp : s.Carries p i pass := ⟨errand, batch, hpass, hworking⟩
    obtain ⟨past, hpasses, hlogs, hwork⟩ := h.flight hp
    have hover := hserial.flatMap_flight hrun hp hpasses (.advance p)
    refine ⟨past, d, ?_, hd, ?_, ?_, .inr ⟨pass, batch, hworking⟩⟩
    · rw [passesOn_concat hrun, State.opened?, event?_other hworking (.inr (by rintro _ ⟨⟩)),
        hpasses]
      exact List.append_nil _
    · rwa [hover]
    · rw [List.flatMap_append, List.flatMap_singleton] at hwork ⊢
      rw [hover, failuresBy_concat hrun, State.failed?, taken?_of_isDone hworking hdone,
        Option.map_some, Option.toList_some, List.flatten_singleton, ← List.append_assoc]
      exact Pass.logs_conclude s.fleet batch.outcomes hwork

/-- **A step keeps what the record and the copy have.** -/
theorem Recorded.step (h : Recorded s₀ labels s i d) (h₀ : Intact s₀) (hcapped : Capped s)
    (hrun : run s₀ labels = some s) (hserial : Serial s i (history i s₀ labels) d)
    (hstep : Control.step s l = some s') (hd : s.recordAt i = some d)
    (hd' : s'.recordAt i = some d') : Recorded s₀ (labels ++ [l]) s' i d' := by
  cases slotStep_of_step (h₀.run hrun) hstep hd with
  | kept hprogress hrecord hcarries =>
    cases hd'.symm.trans hrecord
    exact h.quiet h₀ hrun hserial hprogress (fun _ => id) hcarries
  | revised hl hrecord hcarries =>
    cases hd'.symm.trans hrecord
    subst hl
    exact h.quiet h₀ hrun hserial rfl (fun _ hlogs => hlogs.update _) hcarries
  | unplaced hprogress hidle hstart hrecord hidle' =>
    cases hd'.symm.trans hrecord
    exact h.quiet h₀ hrun hserial hprogress
      (fun _ hlogs => Pass.logs_of_failed hstart hlogs.begun)
      fun q pass => iff_of_false (hidle' q pass) (hidle q pass)
  | @dispatched p errand s₁ pass hl hpass hturn _ hrecord hcarries =>
    subst hl
    obtain ⟨past, d₁, hpasses, hd₁, hlogs, hwork, -⟩ := h.turned h₀ hrun hserial hturn hpass hd
    cases hd'.symm.trans (hrecord.trans hd₁)
    refine ⟨fun hidle => absurd ((hcarries p pass).2 ⟨rfl, rfl⟩) (hidle p pass), fun hq => ?_⟩
    obtain ⟨rfl, rfl⟩ := (hcarries _ _).1 hq
    exact ⟨past, hpasses, hlogs, hwork⟩
  | @aborted p errand s₁ pass hl hpass hturn hlt hrecord hidle =>
    subst hl
    obtain ⟨past, d₁, hpasses, hd₁, hlogs, -, hnone⟩ := h.turned h₀ hrun hserial hturn hpass hd
    cases hd'.symm.trans (hrecord.trans hd₁)
    refine ⟨fun _ => ?_, fun hq => absurd hq (hidle _ _)⟩
    rcases hnone with hnone | ⟨pass', batch, hworking⟩
    · rw [hpasses, List.flatMap_append, List.flatMap_singleton, hnone, List.append_nil]
      exact hlogs
    · -- a pass that could make calls can make more
      have hle := hcapped.permits_le hworking pass.plan
      rw [State.batchOf, hturn.sameWorld.settings] at hlt
      exact absurd hlt (Nat.not_lt.2 hle)
  | @finished p errand s₁ work report hl hpass hturn hrecord hidle =>
    subst hl
    obtain ⟨past, d₁, hpasses, hd₁, -, hwork, -⟩ := h.turned h₀ hrun hserial hturn hpass hd
    rw [hd₁, hd', Option.map_some] at hrecord
    cases hrecord
    refine ⟨fun _ => ?_, fun hq => absurd hq (hidle _ _)⟩
    rw [hpasses]
    exact Deployment.Logs.absorb hwork d₁

/-- No pass begins on a slot before there is a record. -/
theorem passesOn_eq_nil (h₀ : Intact s₀) (hrun : run s₀ labels = some s)
    (hnone : s.recordAt i = none) : passesOn i s₀ labels = [] := by
  refine run_induction (P := fun labels s => s.recordAt i = none → passesOn i s₀ labels = [])
    (fun _ => rfl) ?_ hrun hnone
  intro labels s l s' hrun ih hstep hnone
  have hbefore := recordAt_before hstep hnone
  have hopened : s.opened? i l = none := by
    refine Option.eq_none_iff_forall_ne_some.2 fun p hp => ?_
    obtain ⟨-, errand, -, hproc⟩ := opened?_eq_some hp
    obtain ⟨d, hd⟩ := State.exists_recordAt ((h₀.run hrun).locked.placed_proc hproc rfl)
    cases hbefore.symm.trans hd
  rw [passesOn_concat hrun, ih hbefore, hopened]
  rfl

/-- **Along a run, records and copies have what the passes noted.** -/
theorem Recorded.run (h₀ : s₀.Fresh) (hrun : Control.run s₀ labels = some s)
    (hd : s.recordAt i = some d) : Recorded s₀ labels s i d := by
  refine run_induction (P := fun labels s => ∀ d, s.recordAt i = some d →
    Recorded s₀ labels s i d) ?_ ?_ hrun d hd
  · intro d hd
    rw [State.recordAt, h₀.slots] at hd
    cases hd
  · intro labels s l s' hrun ih hstep d' hd'
    cases hbefore : s.recordAt i with
    | some d =>
      exact (ih d hbefore).step h₀.intact (h₀.capped.run hrun) hrun (Serial.run h₀ hrun hbefore)
        hstep hbefore hd'
    | none =>
      -- the deployment is new
      obtain ⟨request, fresh, rfl, rfl⟩ := recordAt_new hstep hbefore hd'
      have hrun' : Control.run s₀ (labels ++ [.submit request fresh]) = some s' := by
        rw [run_append, hrun, Option.bind_some, hstep]
      have hopened : s.opened? i (.submit request fresh) = none :=
        Option.eq_none_iff_forall_ne_some.2 fun p hp => by cases (opened?_eq_some hp).1
      have hpasses : passesOn i s₀ (labels ++ [.submit request fresh]) = [] := by
        rw [passesOn_concat hrun, passesOn_eq_nil h₀.intact hrun hbefore, hopened]
        rfl
      refine ⟨fun _ => ?_, fun hq => ?_⟩
      · rw [hpasses]
        exact Deployment.logs_new ..
      · obtain ⟨p₀, -, hflight, -⟩ := (Serial.run h₀ hrun' hd').flight hq
        obtain ⟨past, hover, -⟩ := hflight.passes
        exact absurd (hpasses.symm.trans hover) (by simp)

/-- A process begins one pass. -/
theorem nodup_passesOn (h₀ : s₀.Fresh) (hrun : run s₀ labels = some s) (i : SlotId) :
    (passesOn i s₀ labels).Nodup := by
  refine run_induction (P := fun labels _ => (passesOn i s₀ labels).Nodup) List.nodup_nil ?_ hrun
  intro labels s l s' hrun ih hstep
  rw [passesOn_concat hrun]
  cases hopened : s.opened? i l with
  | none => rwa [Option.toList_none, List.append_nil]
  | some p =>
    obtain ⟨-, errand, -, hproc⟩ := opened?_eq_some hopened
    have hl := (h₀.intact.run hrun).locked
    obtain ⟨d, hd⟩ := State.exists_recordAt (hl.placed_proc hproc rfl)
    have hrest := (Serial.run h₀ hrun hd).rest (not_carries_of_admitted hl hproc)
    -- the passes before are over, and this one is not
    have hnew : p ∉ passesOn i s₀ labels := fun hp => by
      obtain ⟨answer, hanswer⟩ := hrest.answered p hp
      obtain ⟨errand', hended⟩ := State.answer?_eq_some.1 hanswer
      cases hproc.symm.trans hended
    exact List.concat_eq_append ▸ ih.concat hnew

end

/-! ### The log of a record -/

/-- What is promised of error logs in a state that a run leads to. -/
structure LogsWindowed (s₀ : State) (labels : List Label) (s : State) : Prop where
  /-- The outcomes with which a process goes on are those of its plan, in the order of the plan. -/
  ordered : ∀ p l outs, s.taken? p l = some outs → ∃ errand i pass batch,
    s.IsWorking p errand i pass batch ∧ outs.map (·.dispatch) = pass.plan
  /-- Each pass on a slot is that of another process. -/
  once : ∀ i, (passesOn i s₀ labels).Nodup
  /-- With no pass under way, the record has the end of what the passes on its slot noted. -/
  rest : ∀ i d, s.recordAt i = some d → (∀ p pass, ¬ s.Carries p i pass) →
    d.Remembers s₀.settings.errorLogCapacity.toNat
      ((passesOn i s₀ labels).map (failuresBy · s₀ labels))
  /-- With a pass under way, the record has the end of what those before it noted, and the copy of
  the pass that of what all of them noted. -/
  flight : ∀ i d p pass, s.recordAt i = some d → s.Carries p i pass →
    ∃ past, passesOn i s₀ labels = past ++ [p] ∧
      d.Remembers s₀.settings.errorLogCapacity.toNat (past.map (failuresBy · s₀ labels)) ∧
      pass.work.Remembers s₀.settings.errorLogCapacity.toNat
        ((past ++ [p]).map (failuresBy · s₀ labels))

/-- **The error log is a window on the failures of all passes**, the end of what they noted, pass
after pass and in the order of their plans, whatever requests and processes come between. -/
theorem error_log_windows {s₀ s : State} {labels : List Label} (h₀ : s₀.Fresh)
    (hrun : run s₀ labels = some s) : LogsWindowed s₀ labels s := by
  have hI := h₀.intact.run hrun
  have hconfined := Confined.run h₀ hrun
  have hcapacity : s.logCapacity = max s₀.settings.errorLogCapacity.toNat 1 := by
    rw [State.logCapacity, settings_run hrun]
  constructor
  case ordered =>
    intro p l outs htaken
    obtain ⟨-, errand, i, pass, batch, hp, hdone, rfl⟩ := taken?_eq_some htaken
    exact ⟨errand, i, pass, batch, hp, (Batch.outcomes_dispatches hdone).trans (hI.plans hp)⟩
  case once => exact nodup_passesOn h₀ hrun
  case rest =>
    intro i d hd hidle
    have hrecord : d.LogWithin s.logCapacity := hconfined.logs.record hd
    exact ((Recorded.run h₀ hrun hd).rest hidle).remembers (hrecord.limit.trans hcapacity)
  case flight =>
    intro i d p pass hd hp
    obtain ⟨past, hpasses, hlogs, hwork⟩ := (Recorded.run h₀ hrun hd).flight hp
    have hrecord : d.LogWithin s.logCapacity := hconfined.logs.record hd
    obtain ⟨errand, batch, -, hworking⟩ := hp
    obtain ⟨-, p₀, outs, hb, hcourse⟩ := hconfined.logs.pass hworking
    have hcopy := hcourse.logWithin (Nat.le_max_right ..) hb
    exact ⟨past, hpasses, hlogs.remembers (hrecord.limit.trans hcapacity),
      hwork.remembers (hcopy.limit.trans hcapacity)⟩

/-- A control plane whose records keep one failure. -/
def oneFailure : State := { oneNode with settings := { errorLogCapacity := 1 } }

/-- Two passes fail one after the other, and a request comes during the first. -/
def failingTwice : List Label :=
  [.change (.fail "n"), .change (.setWall 1),
    .submit { deploymentId := some "a", container := { image := "web" }, scale := 1 } "x"] ++
  List.replicate 4 (.advance 0) ++
  [.submit { deploymentId := some "a", container := { image := "db" }, scale := 1 } "y",
    .startCall 0 0, .advance 0, .change (.setWall 2)] ++
  List.replicate 4 (.advance 1) ++ [.startCall 1 0, .advance 1]

theorem error_log_windows_failingTwice : oneFailure.Fresh ∧
    ∃ s d, run oneFailure failingTwice = some s ∧ s.recordAt 0 = some d ∧
      ((passesOn 0 oneFailure failingTwice).map (failuresBy · oneFailure failingTwice)).map
        (·.map (·.occurredAt)) = [[1], [2]] ∧
      d.errorLog.map (·.occurredAt) = [2] ∧ LogsWindowed oneFailure failingTwice s := by
  have hfresh : oneFailure.Fresh := ⟨rfl, rfl, rfl⟩
  have hpasses : ((passesOn 0 oneFailure failingTwice).map
      (failuresBy · oneFailure failingTwice)).map (·.map (·.occurredAt)) = [[1], [2]] := by
    decide +kernel
  have hend : (run oneFailure failingTwice).any fun s =>
      (s.recordAt 0).any fun d => d.errorLog.map (·.occurredAt) == [2] := by decide +kernel
  obtain ⟨s, hrun, hs⟩ := (Option.any_eq_true ..).1 hend
  obtain ⟨d, hd, hlog⟩ := (Option.any_eq_true ..).1 hs
  exact ⟨hfresh, s, d, hrun, hd, hpasses, beq_iff_eq.1 hlog, error_log_windows hfresh hrun⟩

end Control

end FleetControl
