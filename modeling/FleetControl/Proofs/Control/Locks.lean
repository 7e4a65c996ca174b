import FleetControl.Proofs.Control.Moves
import Mathlib.Logic.Function.Basic

/-!
# The locks of the slots

A lock and the stages of the processes tell the same story (`Control.Locked`): the holder of a slot
is the process that is admitted to it or works on it, and its queue lists the processes that wait
for it, each once. Every step keeps this (`Locked.step`), so two processes never work on one slot
(`Locked.holder_unique`).

`Control.LocksAgree` says so of the functions that give the stages, holders and queues, which a step
changes at one or two places.
-/

namespace FleetControl

namespace Control

namespace Stage

/-- The slot that a process at the stage is concerned with. -/
def slot? : Stage → Option SlotId
  | .flag i | .approach i | .queued i | .admitted i | .working i .. => some i
  | .lookup _ | .ended _ => none

/-- The slot that a process at the stage holds. -/
def held? : Stage → Option SlotId
  | .admitted i | .working i .. => some i
  | _ => none

/-- The slot that a process at the stage waits for. -/
def awaited? : Stage → Option SlotId
  | .queued i => some i
  | _ => none

theorem eq_queued {stage : Stage} {i : SlotId} (h : stage.awaited? = some i) :
    stage = .queued i := by
  cases stage <;> cases h
  rfl

theorem awaited?_of_held {stage : Stage} {i : SlotId} (h : stage.held? = some i) :
    stage.awaited? = none := by
  cases stage <;> first | rfl | cases h

theorem slot?_of_held {stage : Stage} {i : SlotId} (h : stage.held? = some i) :
    stage.slot? = some i := by
  cases stage <;> first | exact h | cases h

end Stage

/-- Holders and queues agree with the stages of the processes, with `n` slots. -/
structure LocksAgree (n : Nat) (stage : ProcId → Option Stage) (holder : SlotId → Option ProcId)
    (queue : SlotId → List ProcId) : Prop where
  placed : ∀ {p st i}, stage p = some st → st.slot? = some i → i < n
  holds : ∀ p i, holder i = some p ↔ (stage p).bind Stage.held? = some i
  waits : ∀ p i, p ∈ queue i ↔ (stage p).bind Stage.awaited? = some i
  nodup : ∀ i, (queue i).Nodup

namespace LocksAgree

variable {n : Nat} {stage : ProcId → Option Stage} {holder : SlotId → Option ProcId}
  {queue : SlotId → List ProcId} {p : ProcId} {i : SlotId}

/-! #### One process goes to another stage -/

theorem placed_update (h : LocksAgree n stage holder queue) {new : Stage} {q : ProcId} {st : Stage}
    {j : SlotId} (hq : Function.update stage p (some new) q = some st) (hj : st.slot? = some j)
    (hnew : ∀ i, new.slot? = some i → i < n) : j < n := by
  by_cases hqp : q = p
  · subst hqp
    rw [Function.update_self] at hq
    cases hq
    exact hnew j hj
  · rw [Function.update_of_ne hqp] at hq
    exact h.placed hq hj

theorem holds_update (h : LocksAgree n stage holder queue) {new : Stage}
    (hnew : new.held? = (stage p).bind Stage.held?) (q : ProcId) (j : SlotId) :
    holder j = some q ↔ (Function.update stage p (some new) q).bind Stage.held? = some j := by
  rw [h.holds q j]
  by_cases hqp : q = p
  · subst hqp
    rw [Function.update_self, Option.bind_some, hnew]
  · rw [Function.update_of_ne hqp]

theorem waits_update (h : LocksAgree n stage holder queue) {new : Stage}
    (hnew : new.awaited? = (stage p).bind Stage.awaited?) (q : ProcId) (j : SlotId) :
    q ∈ queue j ↔ (Function.update stage p (some new) q).bind Stage.awaited? = some j := by
  rw [h.waits q j]
  by_cases hqp : q = p
  · subst hqp
    rw [Function.update_self, Option.bind_some, hnew]
  · rw [Function.update_of_ne hqp]

/-- The process that goes to the stage takes a free lock. -/
theorem holds_update_take (h : LocksAgree n stage holder queue) (hfree : holder i = none)
    {old new : Stage} (hp : stage p = some old) (hold : old.held? = none)
    (hnew : new.held? = some i) (q : ProcId) (j : SlotId) :
    Function.update holder i (some p) j = some q ↔
      (Function.update stage p (some new) q).bind Stage.held? = some j := by
  have hbefore := h.holds q j
  by_cases hqp : q = p <;> by_cases hji : j = i
  · subst hqp hji
    simp [hnew]
  · -- it holds no other lock
    subst hqp
    rw [hp, Option.bind_some, hold] at hbefore
    simpa [Function.update_of_ne hji, hnew, Ne.symm hji] using hbefore
  · subst hji
    rw [hfree] at hbefore
    simpa [Function.update_of_ne hqp, Ne.symm hqp] using hbefore
  · rwa [Function.update_of_ne hqp, Function.update_of_ne hji]

/-! #### Taking a lock and giving it back -/

/-- A process goes to a stage at which it holds and awaits what it did before. -/
theorem move (h : LocksAgree n stage holder queue) {new : Stage}
    (hplaced : ∀ i, new.slot? = some i → i < n)
    (hheld : new.held? = (stage p).bind Stage.held?)
    (hawaited : new.awaited? = (stage p).bind Stage.awaited?) :
    LocksAgree n (Function.update stage p (some new)) holder queue :=
  ⟨fun hq hj => h.placed_update hq hj hplaced, h.holds_update hheld, h.waits_update hawaited, h.nodup⟩

/-- A process takes a lock that is free. -/
theorem lock (h : LocksAgree n stage holder queue) (hp : stage p = some (.approach i))
    (hfree : holder i = none) :
    LocksAgree n (Function.update stage p (some (.admitted i)))
      (Function.update holder i (some p)) queue where
  placed := fun hq hj => h.placed_update hq hj fun _ hi => h.placed hp hi
  holds := h.holds_update_take hfree hp rfl rfl
  waits := h.waits_update (by rw [hp]; rfl)
  nodup := h.nodup

/-- A process goes to the end of a queue. -/
theorem wait (h : LocksAgree n stage holder queue) (hp : stage p = some (.approach i)) :
    LocksAgree n (Function.update stage p (some (.queued i))) holder
      (Function.update queue i (queue i ++ [p])) where
  placed := fun hq hj => h.placed_update hq hj fun _ hi => h.placed hp hi
  holds := h.holds_update (by rw [hp]; rfl)
  waits := fun q j => by
    have hold := h.waits q j
    by_cases hqp : q = p <;> by_cases hji : j = i
    · subst hqp hji
      simp [Stage.awaited?]
    · -- it waits in no other queue
      subst hqp
      rw [hp] at hold
      simpa [Function.update_of_ne hji, Stage.awaited?, Ne.symm hji] using hold
    · subst hji
      simpa [Function.update_of_ne hqp, hqp] using hold
    · rwa [Function.update_of_ne hqp, Function.update_of_ne hji]
  nodup := fun j => by
    by_cases hji : j = i
    · subst hji
      have hnot : p ∉ queue j := by
        rw [h.waits, hp]
        simp [Stage.awaited?]
      rw [Function.update_self]
      exact List.nodup_append.2 ⟨h.nodup j, List.nodup_singleton p, by grind⟩
    · rw [Function.update_of_ne hji]
      exact h.nodup j

/-- A process ends and gives a lock back for which nobody waits. -/
theorem free (h : LocksAgree n stage holder queue) {st : Stage} (hp : stage p = some st)
    (hheld : st.held? = some i) (answer : Answer) :
    LocksAgree n (Function.update stage p (some (.ended answer))) (Function.update holder i none)
      queue where
  placed := fun hq hj => h.placed_update hq hj (by rintro _ ⟨⟩)
  holds := fun q j => by
    have hold := h.holds q j
    have hholder : holder i = some p := (h.holds p i).2 (by rw [hp]; exact hheld)
    by_cases hqp : q = p <;> by_cases hji : j = i
    · subst hqp hji
      simp [Stage.held?]
    · subst hqp
      rw [hp, Option.bind_some, hheld] at hold
      simpa [Function.update_of_ne hji, Stage.held?, Ne.symm hji] using hold
    · subst hji
      rw [hholder] at hold
      simpa [Function.update_of_ne hqp, Ne.symm hqp] using hold
    · rwa [Function.update_of_ne hqp, Function.update_of_ne hji]
  waits := h.waits_update (by rw [hp, Option.bind_some, Stage.awaited?_of_held hheld]; rfl)
  nodup := h.nodup

/-- The first that waits for a lock without a holder gets it. -/
theorem handOver (h : LocksAgree n stage holder queue) {next : ProcId} {rest : List ProcId}
    (hqueue : queue i = next :: rest) (hfree : holder i = none) :
    LocksAgree n (Function.update stage next (some (.admitted i)))
      (Function.update holder i (some next)) (Function.update queue i rest) := by
  have hmem : next ∈ queue i := hqueue ▸ List.mem_cons_self
  obtain ⟨st, hst, hawaited⟩ := Option.bind_eq_some_iff.1 ((h.waits next i).1 hmem)
  cases Stage.eq_queued hawaited
  have hnodup := h.nodup i
  rw [hqueue, List.nodup_cons] at hnodup
  refine ⟨fun hq hj => h.placed_update hq hj fun _ hi => h.placed hst hi,
    h.holds_update_take hfree hst rfl rfl, fun q j => ?_, fun j => ?_⟩
  · have hold := h.waits q j
    by_cases hqn : q = next <;> by_cases hji : j = i
    · -- it was in the queue once, and is not any more
      subst hqn hji
      simpa [Stage.awaited?] using hnodup.1
    · subst hqn
      rw [hst] at hold
      simpa [Function.update_of_ne hji, Stage.awaited?, Ne.symm hji] using hold
    · subst hji
      rw [hqueue, List.mem_cons] at hold
      simpa [Function.update_of_ne hqn, hqn] using hold
    · rwa [Function.update_of_ne hqn, Function.update_of_ne hji]
  · by_cases hji : j = i
    · subst hji
      rw [Function.update_self]
      exact hnodup.2
    · rw [Function.update_of_ne hji]
      exact h.nodup j

end LocksAgree

/-! ### Stages, holders and queues of a state -/

namespace State

variable {s : State} {p : ProcId} {i : SlotId}

/-- The stage of a process. -/
def stageAt (s : State) (p : ProcId) : Option Stage := (s.procs[p]?).map (·.stage)

theorem stageAt_of_proc {errand : Errand} {stage : Stage}
    (h : s.procs[p]? = some ⟨errand, stage⟩) : s.stageAt p = some stage := by
  rw [stageAt, h]
  rfl

theorem stageAt_setStage {old : Stage} (h : s.stageAt p = some old) (stage : Stage) :
    (s.setStage p stage).stageAt = Function.update s.stageAt p (some stage) := by
  funext q
  rw [stageAt, procs_setStage]
  by_cases hpq : p = q
  · subst hpq
    obtain ⟨proc, hproc, -⟩ := Option.map_eq_some_iff.1 h
    rw [if_pos rfl, hproc, Function.update_self]
    rfl
  · rw [if_neg hpq, Function.update_of_ne (Ne.symm hpq)]
    rfl

theorem stageAt_spawn (errand : Errand) (stage : Stage) :
    (s.spawn errand stage).1.stageAt = Function.update s.stageAt s.procs.size (some stage) := by
  funext q
  rw [stageAt, procs_spawn]
  by_cases hq : q = s.procs.size
  · rw [if_pos hq, hq, Function.update_self]
    rfl
  · rw [if_neg hq, Function.update_of_ne hq]
    rfl

theorem stageAt_size : s.stageAt s.procs.size = none := by
  rw [stageAt, Array.getElem?_size]
  rfl

theorem holder_of_slot {sl : Slot} (h : s.slots[i]? = some sl) : s.holder i = sl.holder := by
  rw [holder, h]
  rfl

theorem queue_of_slot {sl : Slot} (h : s.slots[i]? = some sl) : s.queue i = sl.queue := by
  rw [queue, h]
  rfl

theorem slot_of_holder (h : s.holder i = some p) : ∃ sl, s.slots[i]? = some sl := by
  obtain ⟨sl, hsl, -⟩ := Option.bind_eq_some_iff.1 h
  exact ⟨sl, hsl⟩

theorem holder_modifySlot {sl : Slot} (h : s.slots[i]? = some sl) (f : Slot → Slot) :
    (s.modifySlot i f).holder = Function.update s.holder i (f sl).holder := by
  funext j
  rw [holder, slots_modifySlot]
  by_cases hij : i = j
  · subst hij
    rw [if_pos rfl, h, Function.update_self]
    rfl
  · rw [if_neg hij, Function.update_of_ne (Ne.symm hij)]
    rfl

theorem queue_modifySlot {sl : Slot} (h : s.slots[i]? = some sl) (f : Slot → Slot) :
    (s.modifySlot i f).queue = Function.update s.queue i (f sl).queue := by
  funext j
  rw [queue, slots_modifySlot]
  by_cases hij : i = j
  · subst hij
    rw [if_pos rfl, h, Function.update_self]
    rfl
  · rw [if_neg hij, Function.update_of_ne (Ne.symm hij)]
    rfl

@[simp] theorem length_modifySlot (i : SlotId) (f : Slot → Slot) :
    (s.modifySlot i f).slots.length = s.slots.length :=
  List.length_modify ..

end State

/-- What the locks say agrees with the stages of the processes. -/
def Locked (s : State) : Prop := LocksAgree s.slots.length s.stageAt s.holder s.queue

namespace Locked

variable {s s' : State} {p q : ProcId} {i : SlotId}

/-- Only one process holds a slot. -/
theorem holder_unique (h : Locked s) {stage stage' : Stage} (hp : s.stageAt p = some stage)
    (hq : s.stageAt q = some stage') (hi : stage.held? = some i) (hi' : stage'.held? = some i) :
    p = q := by
  have hholds := (h.holds p i).2 (by rw [hp]; exact hi)
  rw [(h.holds q i).2 (by rw [hq]; exact hi')] at hholds
  exact (Option.some.inj hholds).symm

theorem of_fresh (h : s.slots = []) (h' : s.procs = #[]) : Locked s := by
  constructor <;> simp [State.stageAt, State.holder, State.queue, h, h']

/-- A change of a slot that does not concern its lock. -/
theorem modifySlot (h : Locked s) {f : Slot → Slot} (hholder : ∀ sl, (f sl).holder = sl.holder)
    (hqueue : ∀ sl, (f sl).queue = sl.queue) (i : SlotId) : Locked (s.modifySlot i f) := by
  have hlength := State.length_modifySlot (s := s) i f
  have hh : (s.modifySlot i f).holder = s.holder := by
    funext j
    rw [State.holder, State.slots_modifySlot, State.holder]
    cases s.slots[j]? <;> split <;> simp [hholder]
  have hq : (s.modifySlot i f).queue = s.queue := by
    funext j
    rw [State.queue, State.slots_modifySlot, State.queue]
    cases s.slots[j]? <;> split <;> simp [hqueue]
  rw [Locked, hlength, hh, hq]
  exact h

theorem placed_proc (h : Locked s) {errand : Errand} {stage : Stage}
    (hp : s.procs[p]? = some ⟨errand, stage⟩) (hslot : stage.slot? = some i) :
    i < s.slots.length :=
  h.placed (State.stageAt_of_proc hp) hslot

theorem mapRecord (h : Locked s) (i : SlotId) (f : Deployment → Deployment) :
    Locked (s.mapRecord i f) := by
  refine modifySlot h ?_ ?_ i
  · exact fun _ => rfl
  · exact fun _ => rfl

theorem setStage (h : Locked s) {old new : Stage} (hp : s.stageAt p = some old)
    (hplaced : ∀ i, new.slot? = some i → i < s.slots.length) (hheld : new.held? = old.held?)
    (hawaited : new.awaited? = old.awaited?) : Locked (s.setStage p new) := by
  rw [Locked, State.stageAt_setStage hp]
  exact LocksAgree.move h hplaced (by rw [hp, hheld]; rfl) (by rw [hp, hawaited]; rfl)

theorem spawn (h : Locked s) {errand : Errand} {stage : Stage}
    (hplaced : ∀ i, stage.slot? = some i → i < s.slots.length) (hheld : stage.held? = none)
    (hawaited : stage.awaited? = none) : Locked (s.spawn errand stage).1 := by
  rw [Locked, State.stageAt_spawn]
  refine LocksAgree.move h hplaced ?_ ?_
  · rw [State.stageAt_size, hheld]
    rfl
  · rw [State.stageAt_size, hawaited]
    rfl

theorem found (h : Locked s) (d : Deployment) : Locked (s.found d) := by
  have hlength : (s.found d).slots.length = s.slots.length + 1 := by simp [State.found]
  have hholder : (s.found d).holder = s.holder := by
    funext j
    rw [State.holder, State.slots_found, State.holder]
    split
    · next hj => rw [hj, List.getElem?_eq_none (Nat.le_refl _)]; rfl
    · rfl
  have hqueue : (s.found d).queue = s.queue := by
    funext j
    rw [State.queue, State.slots_found, State.queue]
    split
    · next hj => rw [hj, List.getElem?_eq_none (Nat.le_refl _)]; rfl
    · rfl
  rw [Locked, hlength, hholder, hqueue]
  exact ⟨fun hp hi => Nat.lt_succ_of_lt (h.placed hp hi), h.holds, h.waits, h.nodup⟩

theorem of_agree {n : Nat} {stage : ProcId → Option Stage} {holder : SlotId → Option ProcId}
    {queue : SlotId → List ProcId} (h : LocksAgree n stage holder queue)
    (hlength : s.slots.length = n) (hstage : s.stageAt = stage) (hholder : s.holder = holder)
    (hqueue : s.queue = queue) : Locked s := by
  subst hlength hstage hholder hqueue
  exact h

theorem lock (h : Locked s) {sl : Slot} (hp : s.stageAt p = some (.approach i))
    (hslot : s.slots[i]? = some sl) (hfree : sl.holder = none) :
    Locked ((s.modifySlot i fun sl => { sl with holder := some p }).setStage p (.admitted i)) := by
  refine of_agree (LocksAgree.lock h hp ((State.holder_of_slot hslot).trans hfree))
    (State.length_modifySlot ..) (State.stageAt_setStage hp _) (State.holder_modifySlot hslot _) ?_
  refine (State.queue_modifySlot hslot _).trans ?_
  rw [← State.queue_of_slot hslot, Function.update_eq_self]

theorem wait (h : Locked s) {sl : Slot} (hp : s.stageAt p = some (.approach i))
    (hslot : s.slots[i]? = some sl) :
    Locked ((s.modifySlot i fun sl => { sl with queue := sl.queue ++ [p] }).setStage p
      (.queued i)) := by
  refine of_agree (LocksAgree.wait h hp) (State.length_modifySlot ..)
    (State.stageAt_setStage hp _) ?_ ?_
  · refine (State.holder_modifySlot hslot _).trans ?_
    rw [← State.holder_of_slot hslot, Function.update_eq_self]
  · rw [State.queue_of_slot hslot]
    exact State.queue_modifySlot hslot _

/-- A process gives its lock back; the first that waits gets it. -/
theorem endProc (h : Locked s) {stage : Stage} (hp : s.stageAt p = some stage)
    (hheld : stage.held? = some i) (answer : Answer) : Locked (s.endProc p i answer) := by
  -- the lock is free for a moment, even if it is handed over at once
  have hfree := LocksAgree.free h hp hheld answer
  have hstage := State.stageAt_setStage hp (.ended answer)
  obtain ⟨⟨record, cancelled, holder, queue⟩, hslot⟩ :=
    State.slot_of_holder ((h.holds p i).2 (by rw [hp]; exact hheld))
  have hqueue := State.queue_of_slot hslot
  have hslot' : (s.setStage p (.ended answer)).slots[i]? = some ⟨record, cancelled, holder, queue⟩ :=
    hslot
  unfold State.endProc State.release
  rw [hslot']
  cases queue with
  | nil =>
    refine of_agree hfree (State.length_modifySlot ..) hstage
      (State.holder_modifySlot hslot' _) ?_
    refine (State.queue_modifySlot hslot' _).trans ?_
    rw [← hqueue]
    exact Function.update_eq_self ..
  | cons next rest =>
    obtain ⟨st, hnext, -⟩ := Option.bind_eq_some_iff.1
      ((hfree.waits next i).1 (hqueue ▸ List.mem_cons_self))
    have hadmit := hfree.handOver hqueue (Function.update_self ..)
    rw [Function.update_idem] at hadmit
    refine of_agree hadmit (State.length_modifySlot ..) ?_ (State.holder_modifySlot hslot' _)
      (State.queue_modifySlot hslot' _)
    rw [← hstage] at hnext ⊢
    have hnext' : ((s.setStage p (.ended answer)).modifySlot i fun sl =>
        { sl with holder := some next, queue := rest }).stageAt next = some st := hnext
    exact State.stageAt_setStage hnext' _

end Locked

/-- The process that takes a turn holds the slot. -/
theorem Turn.held {s s₁ : State} {p : ProcId} {errand : Errand} {i : SlotId} {progress : Progress}
    (h : Turn s p errand i s₁ progress) :
    ∃ stage, s₁.procs[p]? = some ⟨errand, stage⟩ ∧ stage.held? = some i := by
  cases h with
  | opened hproc _ _ _ => exact ⟨_, hproc, rfl⟩
  | drained hproc _ => exact ⟨_, hproc, rfl⟩
  | concluded hproc _ _ _ => exact ⟨_, hproc, rfl⟩

theorem Locked.turn {s s₁ : State} {p : ProcId} {errand : Errand} {i : SlotId} {progress : Progress}
    (h : Locked s) (hturn : Turn s p errand i s₁ progress) : Locked s₁ := by
  cases hturn with
  | @opened _ _ sl _ _ _ _ _ _ =>
    have hmap : Locked (s.mapRecord i fun _ => sl.record.begun) := h.mapRecord ..
    exact hmap
  | drained _ _ => exact h
  | concluded _ _ _ _ => exact h

/-- **Every step keeps locks and stages in agreement**, as long as the index lists slots there
are. -/
theorem Locked.step {s s' : State} {l : Label} (h : Locked s)
    (hindex : ∀ id i, s.index.get? id = some i → i < s.slots.length)
    (hstep : step s l = some s') : Locked s' := by
  cases moves_of_step hstep with
  | refused e _ => exact h.spawn (by rintro i ⟨⟩) rfl rfl
  | revised _ _ => exact (h.mapRecord ..).spawn (by rintro i ⟨⟩) rfl rfl
  | founded _ _ => exact (h.found _).spawn (by rintro i ⟨⟩) rfl rfl
  | triggered id => exact h.spawn (by rintro i ⟨⟩) rfl rfl
  | unknown _ => exact h.spawn (by rintro i ⟨⟩) rfl rfl
  | unlisted hget =>
    refine Locked.spawn h ?_ rfl rfl
    rintro _ ⟨⟩
    exact hindex _ _ hget
  | swept =>
    refine (State.sweep_induction (P := fun s' => Locked s' ∧ s'.slots = s.slots) ⟨h, rfl⟩ ?_).1
    -- a sweep starts processes one after the other, on slots that there were at first
    rintro s' id i ⟨hs', hslots⟩ - hget
    refine ⟨hs'.spawn ?_ rfl rfl, hslots⟩
    rintro _ ⟨⟩
    rw [hslots]
    exact hindex _ _ hget
  | missed hproc _ => exact h.setStage (State.stageAt_of_proc hproc) (by rintro i ⟨⟩) rfl rfl
  | looked hproc hget =>
    refine h.setStage (State.stageAt_of_proc hproc) ?_ rfl rfl
    rintro _ ⟨⟩
    exact hindex _ _ hget
  | flagged hproc =>
    refine Locked.setStage (h.modifySlot (fun _ => by rfl) (fun _ => by rfl) _)
      (State.stageAt_of_proc hproc) ?_ rfl rfl
    rintro _ ⟨⟩
    rw [State.length_modifySlot]
    exact h.placed_proc hproc rfl
  | locked hproc hslot hfree => exact h.lock (State.stageAt_of_proc hproc) hslot hfree
  | waited hproc hslot _ => exact h.wait (State.stageAt_of_proc hproc) hslot
  | unplaced hproc _ _ _ =>
    exact ((h.mapRecord ..).mapRecord ..).endProc (State.stageAt_of_proc hproc) rfl _
  | turned hturn hfollow =>
    obtain ⟨stage, hproc, hheld⟩ := hturn.held
    have hp := State.stageAt_of_proc hproc
    have hlocked := h.turn hturn
    cases hfollow with
    | dispatched pass _ =>
      refine hlocked.setStage hp ?_ hheld.symm (Stage.awaited?_of_held hheld).symm
      rintro _ ⟨⟩
      exact hlocked.placed hp (Stage.slot?_of_held hheld)
    | aborted pass _ => exact hlocked.endProc hp hheld _
    | published work report _ => exact (hlocked.mapRecord ..).endProc hp hheld _
    | deleted id work report _ => exact hlocked.endProc hp hheld _
  | issued hproc _ _ =>
    refine h.setStage (State.stageAt_of_proc hproc) ?_ rfl rfl
    rintro _ ⟨⟩
    exact h.placed_proc hproc rfl
  | called hproc _ =>
    refine Locked.setStage h (State.stageAt_of_proc hproc) ?_ rfl rfl
    rintro _ ⟨⟩
    exact h.placed_proc hproc rfl
  | elapsed now _ => exact h
  | changed c => cases c <;> exact h

end Control

end FleetControl
