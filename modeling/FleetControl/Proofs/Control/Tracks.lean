import FleetControl.Proofs.Control.Moves
import Mathlib.Data.List.Induction

/-!
# Invariants of records and passes

Many invariants speak of one record or one pass at a time: `R` holds of the record of every slot,
and every pass under way has come by a course (`Pass.Course`) from a beginning of which `B` holds
(`Control.Tracks R B`). What has to be shown for a step to keep them is listed in `Control.Upkeep`,
without reference to locks or to other processes; `Tracks.step` and `Tracks.run` do the rest.
-/

namespace FleetControl

namespace Pass

/-- Going on from a beginning with nothing planned follows the course. -/
theorem Course.launch_dispatching {p p' : Pass} {f : Fleet} (h : p.launch f = .dispatching p') :
    Course p p' [] := by
  unfold launch at h
  split at h
  · next hplan => exact Course.opened.proceeded f (List.isEmpty_iff.1 hplan) h
  · cases h
    exact .opened

theorem Course.launch_finished {p : Pass} {f : Fleet} {work : Deployment} {report : Report}
    (h : p.launch f = .finished work report) :
    p.plan = [] ∧ p.proceed f = .finished work report := by
  unfold launch at h
  split at h
  · next hplan => exact ⟨List.isEmpty_iff.1 hplan, h⟩
  · cases h

end Pass

namespace Control

/-- The process has a plan under way. -/
def Stage.isWorking (stage : Stage) : Bool := stage matches .working ..

/-! ### Runs -/

theorem run_cons (s : State) (l : Label) (labels : List Label) :
    run s (l :: labels) = (step s l).bind (run · labels) := rfl

theorem run_append (s : State) (labels : List Label) (l : Label) :
    run s (labels ++ [l]) = (run s labels).bind (step · l) := by
  rw [run, List.foldlM_append]
  simp [run]

/-- Induction along a run. -/
theorem run_induction {s₀ : State} {P : List Label → State → Prop} (hstart : P [] s₀)
    (hstep : ∀ labels s l s', run s₀ labels = some s → P labels s → step s l = some s' →
      P (labels ++ [l]) s') {labels : List Label} {s : State} (h : run s₀ labels = some s) :
    P labels s := by
  induction labels using List.reverseRecOn generalizing s with
  | nil => exact Option.some.inj h ▸ hstart
  | append_singleton labels l ih =>
    rw [run_append] at h
    obtain ⟨s', hs', hl⟩ := Option.bind_eq_some_iff.1 h
    exact hstep labels s' l s hs' (ih hs') hl

/-- What is observed of the steps of a run, in order. -/
def gather {α : Type} (observe : State → Label → Option α) (s : State) : List Label → List α
  | [] => []
  | l :: labels => (observe s l).toList ++ (step s l).elim [] fun s' => gather observe s' labels

theorem gather_concat {α : Type} (observe : State → Label → Option α) {s₀ s : State}
    {labels : List Label} (h : run s₀ labels = some s) (l : Label) :
    gather observe s₀ (labels ++ [l]) = gather observe s₀ labels ++ (observe s l).toList := by
  induction labels generalizing s₀ with
  | nil =>
    cases h
    simp only [List.nil_append, gather]
    cases step s l <;> simp
  | cons l' labels ih =>
    obtain ⟨s', hs', hrun⟩ := Option.bind_eq_some_iff.1 (show (step s₀ l').bind _ = some s from h)
    simp only [List.cons_append, gather, hs', Option.elim_some, ih hrun, List.append_assoc]

namespace State

variable {s : State}

/-! ### Records -/

/-- The record of a slot. -/
def recordAt (s : State) (i : SlotId) : Option Deployment := (s.slots[i]?).map (·.record)

theorem recordAt_of_slot {i : SlotId} {sl : Slot} (h : s.slots[i]? = some sl) :
    s.recordAt i = some sl.record := by
  rw [recordAt, h]
  rfl

theorem exists_recordAt {i : SlotId} (h : i < s.slots.length) : ∃ d, s.recordAt i = some d :=
  ⟨_, recordAt_of_slot (List.getElem?_eq_getElem h)⟩

theorem record?_of_get? {id : String} {i : SlotId} (h : s.index.get? id = some i) :
    s.record? id = s.recordAt i := by
  rw [record?, h]
  cases hslot : s.slots[i]? <;> simp [recordAt, hslot]

theorem recordAt_mapRecord (i j : SlotId) (f : Deployment → Deployment) :
    (s.mapRecord i f).recordAt j = if i = j then (s.recordAt j).map f else s.recordAt j := by
  rw [recordAt, mapRecord, slots_modifySlot]
  split
  · rw [recordAt, Option.map_map, Option.map_map]
    rfl
  · rfl

theorem recordAt_mapRecord_self {i : SlotId} {d : Deployment} (h : s.recordAt i = some d)
    (f : Deployment → Deployment) : (s.mapRecord i f).recordAt i = some (f d) := by
  rw [recordAt_mapRecord, if_pos rfl, h]
  rfl

theorem mapRecord_mapRecord (i : SlotId) (f g : Deployment → Deployment) :
    (s.mapRecord i f).mapRecord i g = s.mapRecord i fun d => g (f d) := by
  simp only [mapRecord, modifySlot, List.modify_modify_eq]
  rfl

theorem recordAt_modifySlot {f : Slot → Slot} (hf : ∀ sl, (f sl).record = sl.record)
    (i j : SlotId) : (s.modifySlot i f).recordAt j = s.recordAt j := by
  rw [recordAt, slots_modifySlot]
  split
  · rw [recordAt, Option.map_map]
    exact congrArg (fun g => (s.slots[j]?).map g) (funext hf)
  · rfl

@[simp] theorem recordAt_release (i j : SlotId) : (s.release i).recordAt j = s.recordAt j := by
  rw [recordAt, slots_release]
  split
  · rw [recordAt, Option.map_map]
    rfl
  · rfl

@[simp] theorem recordAt_endProc (p : ProcId) (i j : SlotId) (answer : Answer) :
    (s.endProc p i answer).recordAt j = s.recordAt j :=
  recordAt_release i j

theorem recordAt_found (d : Deployment) (j : Nat) :
    (s.found d).recordAt j = if j = s.slots.length then some d else s.recordAt j := by
  rw [recordAt, slots_found]
  split <;> rfl

theorem recordAt_sweep (s : State) (i : SlotId) : s.sweep.1.recordAt i = s.recordAt i :=
  sweep_induction (P := fun s' => s'.recordAt i = s.recordAt i) rfl fun _ _ _ hs' _ _ => hs'

/-! ### Passes under way -/

/-- The process carries out a plan. -/
def IsWorking (s : State) (p : ProcId) (errand : Errand) (i : SlotId) (pass : Pass)
    (batch : Batch) : Prop :=
  s.procs[p]? = some ⟨errand, .working i pass batch⟩

variable {p q : ProcId} {errand : Errand} {i j : SlotId} {pass : Pass} {batch : Batch}

theorem IsWorking.of_setStage {stage : Stage}
    (h : (s.setStage p stage).IsWorking q errand i pass batch) :
    p = q ∧ stage = .working i pass batch ∧ (∃ old, s.procs[q]? = some ⟨errand, old⟩) ∨
      p ≠ q ∧ s.IsWorking q errand i pass batch := by
  rw [IsWorking, procs_setStage] at h
  split at h
  · next hpq =>
    obtain ⟨⟨errand', old⟩, hproc, heq⟩ := Option.map_eq_some_iff.1 h
    cases heq
    exact .inl ⟨hpq, rfl, old, hproc⟩
  · next hpq => exact .inr ⟨hpq, h⟩

/-- A process that is put elsewhere than to work brings no pass about. -/
theorem IsWorking.of_setStage_other {stage : Stage} (hstage : stage.isWorking = false)
    (h : (s.setStage p stage).IsWorking q errand i pass batch) :
    s.IsWorking q errand i pass batch := by
  rcases h.of_setStage with ⟨-, rfl, -⟩ | ⟨-, h⟩
  · cases hstage
  · exact h

theorem IsWorking.of_release (h : (s.release j).IsWorking q errand i pass batch) :
    s.IsWorking q errand i pass batch := by
  rw [IsWorking, procs_release] at h
  split at h
  · obtain ⟨proc, -, heq⟩ := Option.map_eq_some_iff.1 h
    cases heq
  · exact h

theorem IsWorking.of_endProc {answer : Answer}
    (h : (s.endProc p j answer).IsWorking q errand i pass batch) :
    s.IsWorking q errand i pass batch :=
  h.of_release.of_setStage_other rfl

theorem IsWorking.of_spawn {errand' : Errand} {stage : Stage} (hstage : stage.isWorking = false)
    (h : (s.spawn errand' stage).1.IsWorking q errand i pass batch) :
    s.IsWorking q errand i pass batch := by
  rw [IsWorking, procs_spawn] at h
  split at h
  · cases h
    cases hstage
  · exact h

end State

/-! ### Tracking -/

/-- `R` holds of every record, and every pass under way has come from a beginning of which `B`
holds. -/
structure Tracks (R : SlotId → Deployment → Prop) (B : ProcId → Errand → SlotId → Pass → Prop)
    (s : State) : Prop where
  record : ∀ {i d}, s.recordAt i = some d → R i d
  pass : ∀ {p errand i pass batch}, s.IsWorking p errand i pass batch →
    batch.dispatches = pass.plan ∧ ∃ p₀ outs, B p errand i p₀ ∧ Pass.Course p₀ pass outs

/-- What has to be shown for the step from `s` under the label `l` to keep `R` and `B`, which may
become `R'` and `B'`. -/
structure Upkeep (s : State) (l : Label) (R R' : SlotId → Deployment → Prop)
    (B B' : ProcId → Errand → SlotId → Pass → Prop) : Prop where
  record_mono : ∀ {i d}, R i d → R' i d
  pass_mono : ∀ {p errand i p₀}, B p errand i p₀ → B' p errand i p₀
  founded : ∀ {request fresh}, l = .submit request fresh →
    s.accept request fresh =
      .ok (s.found (s.newRecord request fresh), (s.newRecord request fresh).id) →
    R' s.slots.length (s.newRecord request fresh)
  revised : ∀ {request fresh id i d}, l = .submit request fresh →
    s.accept request fresh = .ok (s.mapRecord i (·.update request), id) →
    s.index.get? id = some i → R i d → R' i (d.update request)
  begun : ∀ {i d}, R i d → R' i d.begun
  unplaced : ∀ {i d work e}, R i d → Pass.start s.fleet d.begun = .failed work e →
    R' i (d.begun.absorb work)
  opened : ∀ {p errand i sl pass selector}, l = .advance p →
    s.procs[p]? = some ⟨errand, .admitted i⟩ → errand.IsPass → s.slots[i]? = some sl →
    R i sl.record → Pass.start s.fleet sl.record.begun = .planned pass selector →
    B' p errand i pass
  drained : ∀ {p id i sl}, l = .advance p → s.procs[p]? = some ⟨.delete id, .admitted i⟩ →
    s.slots[i]? = some sl → R i sl.record →
    B' p (.delete id) i (Pass.startDrain s.wall sl.record)
  finished : ∀ {p errand i p₀ q outs f work report d}, errand.IsPass → B' p errand i p₀ →
    Pass.Course p₀ q outs → q.plan = [] → q.proceed f = .finished work report → R' i d →
    R' i (d.absorb work)

section

variable {s s' : State} {l : Label} {R R' : SlotId → Deployment → Prop}
  {B B' : ProcId → Errand → SlotId → Pass → Prop}

theorem Tracks.mono (h : Tracks R B s) (hkeep : Upkeep s l R R' B B') : Tracks R' B' s where
  record := fun hi => hkeep.record_mono (h.record hi)
  pass := fun hp => (h.pass hp).imp id fun ⟨p₀, outs, hb, hcourse⟩ =>
    ⟨p₀, outs, hkeep.pass_mono hb, hcourse⟩

/-- A change that leaves the records as they are and brings no pass about. -/
theorem Tracks.of_subset (h : Tracks R B s) (hrecord : ∀ i, s'.recordAt i = s.recordAt i)
    (hpass : ∀ {p errand i pass batch}, s'.IsWorking p errand i pass batch →
      s.IsWorking p errand i pass batch) : Tracks R B s' where
  record := fun hi => h.record (hrecord _ ▸ hi)
  pass := fun hp => h.pass (hpass hp)

theorem Tracks.mapRecord (h : Tracks R B s) {i : SlotId} {f : Deployment → Deployment}
    (hf : ∀ d, s.recordAt i = some d → R i (f d)) : Tracks R B (s.mapRecord i f) where
  record := fun {j d} hj => by
    rw [State.recordAt_mapRecord] at hj
    split at hj
    · next hij =>
      obtain ⟨d₀, hd₀, rfl⟩ := Option.map_eq_some_iff.1 hj
      exact hij ▸ hf d₀ (hij ▸ hd₀)
    · exact h.record hj
  pass := h.pass

theorem Tracks.spawn (h : Tracks R B s) {errand : Errand} {stage : Stage}
    (hstage : stage.isWorking = false) :
    Tracks R B (s.spawn errand stage).1 :=
  h.of_subset (fun _ => rfl) fun hp => hp.of_spawn hstage

theorem Tracks.setStage (h : Tracks R B s) {p : ProcId} {stage : Stage}
    (hstage : stage.isWorking = false) :
    Tracks R B (s.setStage p stage) :=
  h.of_subset (fun _ => rfl) fun hp => hp.of_setStage_other hstage

theorem Tracks.work (h : Tracks R B s) {p : ProcId} {errand : Errand} {old : Stage} {i : SlotId}
    {pass p₀ : Pass} {batch : Batch} {outs : List Outcome} (hproc : s.procs[p]? = some ⟨errand, old⟩)
    (hplan : batch.dispatches = pass.plan) (hb : B p errand i p₀)
    (hcourse : Pass.Course p₀ pass outs) : Tracks R B (s.setStage p (.working i pass batch)) where
  record := h.record
  pass := fun {q errand' i' pass' batch'} hq => by
    rcases hq.of_setStage with ⟨rfl, hstage, old', hproc'⟩ | ⟨-, hq⟩
    · rw [hproc] at hproc'
      cases hproc'
      cases hstage
      exact ⟨hplan, p₀, outs, hb, hcourse⟩
    · exact h.pass hq

theorem Tracks.modifySlot (h : Tracks R B s) {f : Slot → Slot} (hf : ∀ sl, (f sl).record = sl.record)
    (i : SlotId) : Tracks R B (s.modifySlot i f) :=
  h.of_subset (State.recordAt_modifySlot hf i) id

theorem Tracks.found (h : Tracks R B s) {d : Deployment} (hd : R s.slots.length d) :
    Tracks R B (s.found d) where
  record := fun {j d'} hj => by
    rw [State.recordAt_found] at hj
    split at hj
    · next hlast =>
      cases hj
      exact hlast ▸ hd
    · exact h.record hj
  pass := h.pass

theorem Tracks.endProc (h : Tracks R B s) (p : ProcId) (i : SlotId) (answer : Answer) :
    Tracks R B (s.endProc p i answer) :=
  h.of_subset (fun _ => State.recordAt_endProc ..) fun hp => hp.of_endProc

/-- The turn of a process leads from a beginning to what comes next in its pass. -/
theorem Tracks.turn (h : Tracks R B s) {p : ProcId} (hkeep : Upkeep s (.advance p) R R' B B')
    {errand : Errand} {i : SlotId} {progress : Progress} (hturn : Turn s p errand i s' progress) :
    Tracks R' B' s' ∧ (∃ old, s'.procs[p]? = some ⟨errand, old⟩) ∧ ∃ p₀ outs,
      B' p errand i p₀ ∧
      (∀ pass, progress = .dispatching pass → Pass.Course p₀ pass outs) ∧
      ∀ work report, progress = .finished work report →
        ∃ q f, Pass.Course p₀ q outs ∧ q.plan = [] ∧ q.proceed f = .finished work report := by
  cases hturn with
  | @opened _ _ sl pass selector hproc hpass hslot hstart =>
    have hrecord := h.record (State.recordAt_of_slot hslot)
    have hkept := (h.mono hkeep).mapRecord fun _ _ => hkeep.begun hrecord
    refine ⟨hkept.of_subset (fun _ => rfl) id, ⟨_, hproc⟩, pass, [],
      hkeep.opened rfl hproc hpass hslot hrecord hstart, ?_, ?_⟩
    · exact fun _ hlaunch => Pass.Course.launch_dispatching hlaunch
    · exact fun _ _ hlaunch => ⟨pass, _, .opened, Pass.Course.launch_finished hlaunch⟩
  | @drained id _ sl hproc hslot =>
    refine ⟨h.mono hkeep, ⟨_, hproc⟩, _, [],
      hkeep.drained rfl hproc hslot (h.record (State.recordAt_of_slot hslot)), ?_, ?_⟩
    · exact fun _ hlaunch => Pass.Course.launch_dispatching hlaunch
    · exact fun _ _ hlaunch => ⟨_, _, .opened, Pass.Course.launch_finished hlaunch⟩
  | @concluded _ _ sl pass batch hproc hslot _ hdone =>
    obtain ⟨hplan, p₀, outs, hb, hcourse⟩ := h.pass hproc
    -- the outcomes are those of the plan, in its order, so they lead on along the course
    have houtcomes := (Batch.outcomes_dispatches hdone).trans hplan
    refine ⟨h.mono hkeep, ⟨_, hproc⟩, p₀, outs ++ batch.outcomes, hkeep.pass_mono hb, ?_, ?_⟩
    · exact fun _ hconclude => hcourse.conclude_dispatching houtcomes hconclude
    · intro work report hconclude
      obtain ⟨q, hq⟩ := hcourse.conclude_finished houtcomes hconclude
      exact ⟨q, _, hq⟩

/-- **One step keeps what is kept record by record and pass by pass.** -/
theorem Tracks.step (h : Tracks R B s) (hkeep : Upkeep s l R R' B B') (hstep : step s l = some s') :
    Tracks R' B' s' := by
  have hkept := h.mono hkeep
  cases moves_of_step hstep with
  | refused e _ => exact hkept.spawn rfl
  | revised haccept hget =>
    refine Tracks.spawn ?_ rfl
    exact hkept.mapRecord fun d hd => hkeep.revised rfl haccept hget (h.record hd)
  | founded haccept _ => exact (hkept.found (hkeep.founded rfl haccept)).spawn rfl
  | triggered id => exact hkept.spawn rfl
  | unknown _ => exact hkept.spawn rfl
  | unlisted _ =>
    refine Tracks.spawn ?_ rfl
    exact hkept.of_subset (fun _ => rfl) id
  | swept => exact State.sweep_induction hkept fun _ _ _ hs' _ _ => hs'.spawn rfl
  | missed _ _ => exact hkept.setStage rfl
  | looked _ _ => exact hkept.setStage rfl
  | flagged _ => exact (hkept.modifySlot (fun _ => by rfl) _).setStage rfl
  | locked _ _ _ => exact (hkept.modifySlot (fun _ => by rfl) _).setStage rfl
  | waited _ _ _ => exact (hkept.modifySlot (fun _ => by rfl) _).setStage rfl
  | unplaced _ _ hslot hstart =>
    rw [State.mapRecord_mapRecord]
    refine Tracks.endProc (hkept.mapRecord fun _ _ => ?_) ..
    exact hkeep.unplaced (h.record (State.recordAt_of_slot hslot)) hstart
  | turned hturn hfollow =>
    obtain ⟨hkept, ⟨old, hproc⟩, p₀, outs, hb, hdispatching, hfinished⟩ := h.turn hkeep hturn
    cases hfollow with
    | dispatched pass _ =>
      exact hkept.work hproc (Batch.dispatches_ofPlan ..) hb (hdispatching pass rfl)
    | aborted pass _ => exact hkept.endProc ..
    | published work report hpass =>
      obtain ⟨q, f, hcourse, hplan, hend⟩ := hfinished work report rfl
      refine Tracks.endProc (hkept.mapRecord fun d hd => ?_) ..
      exact hkeep.finished hpass hb hcourse hplan hend (hkept.record hd)
    | deleted _ work report _ => exact hkept.endProc ..
  | issued hproc _ hout =>
    obtain ⟨hplan, p₀, outs, hb, hcourse⟩ := hkept.pass hproc
    exact hkept.work hproc ((Batch.dispatches_handOut hout).trans hplan) hb hcourse
  | called hproc hcall =>
    obtain ⟨hplan, p₀, outs, hb, hcourse⟩ := hkept.pass hproc
    have hdispatches := (callMove_of_called hcall).dispatches.trans hplan
    refine Tracks.work ?_ hproc hdispatches hb hcourse
    exact hkept.of_subset (fun _ => rfl) id
  | elapsed now _ => exact hkept.of_subset (fun _ => rfl) id
  | changed c => cases c <;> exact hkept.of_subset (fun _ => rfl) id

end

/-- What is kept may speak of the steps taken so far. -/
theorem Tracks.run {s₀ : State} {R : List Label → SlotId → Deployment → Prop}
    {B : List Label → ProcId → Errand → SlotId → Pass → Prop} (h₀ : Tracks (R []) (B []) s₀)
    (hkeep : ∀ labels s l, Control.run s₀ labels = some s →
      Upkeep s l (R labels) (R (labels ++ [l])) (B labels) (B (labels ++ [l])))
    {labels : List Label} {s : State} (h : Control.run s₀ labels = some s) :
    Tracks (R labels) (B labels) s :=
  run_induction (P := fun labels s => Tracks (R labels) (B labels) s) h₀
    (fun labels s l _ hrun htracks hstep => htracks.step (hkeep labels s l hrun) hstep) h

/-- No call of a client has been made. -/
structure State.Fresh (s : State) : Prop where
  index : s.index = .empty
  slots : s.slots = []
  procs : s.procs = #[]

theorem State.Fresh.tracks {s : State} (h : s.Fresh) (R : SlotId → Deployment → Prop)
    (B : ProcId → Errand → SlotId → Pass → Prop) : Tracks R B s where
  record := fun {i d} hi => by
    rw [State.recordAt, h.slots] at hi
    cases hi
  pass := fun {p errand i pass batch} hp => by
    rw [State.IsWorking, h.procs] at hp
    cases hp

/-- A control plane over one node. -/
def oneNode : State where
  tree := ⟨[{ name := "" }]⟩
  registry := .ofNodes [{ id := "n" }]
  selector := {}
  settings := {}

theorem fresh_oneNode : oneNode.Fresh := ⟨rfl, rfl, rfl⟩

end Control

end FleetControl
