import FleetControl.Proofs.Control.Listing
import FleetControl.Proofs.Control.Tracks

/-!
# What a step leaves alone

A step concerns few things: the process that takes it (`Label.actor?`), the index, and the record of
one slot.

* `Control.proc_step` : a process stays where it is unless the step is its own, but for one that
  waits, to which the lock may be handed; one that is over stays over (`Control.answer_step`);
* `Control.ownMove_of_step` : what a process does at each stage; from it `Control.entry_of_step`,
  `Control.drained_of_step` and `Control.workStep_of_step` say what it does on its way to the lock
  and once it has it;
* `Control.index_step` : the index changes when a deployment is founded and when one is deleted;
* `Control.record_step` : a record changes by a request for a listed deployment or by the process
  that holds the slot.

With the index in bounds, locks agree with the stages in every state of every run
(`Control.Reached.run`).
-/

namespace FleetControl

namespace Control

/-- The process that a step takes further. -/
def Label.actor? : Label → Option ProcId
  | .advance p | .startCall p _ | .settleCall p _ => some p
  | _ => none

section

variable {s s' : State} {l : Label} {p q : ProcId} {errand : Errand} {stage : Stage} {i j : SlotId}

/-! ### Processes -/

theorem actor?_of_called {k : Nat} {A B : Prop}
    (h : l = .startCall p k ∧ A ∨ l = .settleCall p k ∧ B) : l.actor? = some p := by
  rcases h with ⟨rfl, -⟩ | ⟨rfl, -⟩ <;> rfl

/-- When another process gives a lock back, a process stays where it is or is admitted. -/
theorem proc_endProc (hl : Locked s) {errand' : Errand} {old : Stage}
    (hp : s.procs[p]? = some ⟨errand', old⟩) (hheld : old.held? = some j) (answer : Answer)
    (hpq : p ≠ q) (hq : s.procs[q]? = some ⟨errand, stage⟩) :
    (s.endProc p j answer).procs[q]? = some ⟨errand, stage⟩ ∨ ∃ i, stage = .queued i ∧
      (s.endProc p j answer).procs[q]? = some ⟨errand, .admitted i⟩ := by
  rcases State.procs_endProc hl hp hheld answer q with
    ⟨hself, -⟩ | ⟨-, errand', hqueued, heq⟩ | ⟨-, heq⟩
  · exact absurd hself hpq
  · cases hq.symm.trans hqueued
    exact .inr ⟨j, rfl, heq⟩
  · exact .inl (heq.trans hq)

theorem Turn.procs {s₁ : State} {progress : Progress} (h : Turn s p errand i s₁ progress) :
    s₁.procs = s.procs := by
  cases h <;> rfl

/-- The process has the lock when its turn begins. -/
theorem Turn.proc {s₁ : State} {progress : Progress} (h : Turn s p errand i s₁ progress) :
    ∃ stage, s.procs[p]? = some ⟨errand, stage⟩ ∧ stage.held? = some i := by
  rw [← h.procs]
  exact h.held

/-- A process goes elsewhere by steps of its own, or when a lock that it waits for is handed to it.
-/
theorem proc_step (hl : Locked s) (hstep : step s l = some s') (hother : l.actor? ≠ some q)
    (hq : s.procs[q]? = some ⟨errand, stage⟩) :
    s'.procs[q]? = some ⟨errand, stage⟩ ∨
      ∃ i, stage = .queued i ∧ s'.procs[q]? = some ⟨errand, .admitted i⟩ := by
  have hne : ∀ {p}, l.actor? = some p → p ≠ q := by
    rintro p hp rfl
    exact hother hp
  have hspawn : ∀ {s₁ : State} (errand' : Errand) (stage' : Stage),
      s₁.procs[q]? = some ⟨errand, stage⟩ →
      (s₁.spawn errand' stage').1.procs[q]? = some ⟨errand, stage⟩ := by
    intro s₁ errand' stage' hq₁
    rw [State.procs_spawn, if_neg, hq₁]
    rintro rfl
    cases Array.getElem?_size.symm.trans hq₁
  have hset : ∀ {s₁ : State} {p : ProcId} (new : Stage), p ≠ q →
      s₁.procs[q]? = some ⟨errand, stage⟩ →
      (s₁.setStage p new).procs[q]? = some ⟨errand, stage⟩ := fun new hpq hq₁ =>
    (State.procs_setStage_of_ne hpq new).trans hq₁
  cases moves_of_step hstep with
  | refused e _ => exact .inl (hspawn _ _ hq)
  | revised _ _ => exact .inl (hspawn _ _ hq)
  | founded _ _ => exact .inl (hspawn _ _ hq)
  | triggered id => exact .inl (hspawn _ _ hq)
  | unknown _ => exact .inl (hspawn _ _ hq)
  | unlisted _ => exact .inl (hspawn _ _ hq)
  | swept =>
    exact .inl (State.sweep_induction (P := fun s' => s'.procs[q]? = some ⟨errand, stage⟩) hq
      fun _ _ _ hs' _ _ => hspawn _ _ hs')
  | missed _ _ => exact .inl (hset _ (hne rfl) hq)
  | looked _ _ => exact .inl (hset _ (hne rfl) hq)
  | flagged _ => exact .inl (hset _ (hne rfl) hq)
  | locked _ _ _ => exact .inl (hset _ (hne rfl) hq)
  | waited _ _ _ => exact .inl (hset _ (hne rfl) hq)
  | @unplaced p errand' j sl work e hproc _ _ _ =>
    rw [State.mapRecord_mapRecord]
    have hl₁ : Locked (s.mapRecord j fun _ => sl.record.begun.absorb work) := hl.mapRecord ..
    exact proc_endProc hl₁ hproc rfl _ (hne rfl) hq
  | turned hturn hfollow =>
    obtain ⟨old, hproc, hheld⟩ := hturn.held
    have hl₁ := hl.turn hturn
    rw [← hturn.procs] at hq
    cases hfollow with
    | dispatched pass _ => exact .inl (hset _ (hne rfl) hq)
    | aborted pass _ => exact proc_endProc hl₁ hproc hheld _ (hne rfl) hq
    | published work report _ => exact proc_endProc (hl₁.mapRecord ..) hproc hheld _ (hne rfl) hq
    | deleted id work report _ => exact proc_endProc hl₁ hproc hheld _ (hne rfl) hq
  | issued _ _ _ => exact .inl (hset _ (hne rfl) hq)
  | called _ hcall => exact .inl (hset _ (hne (actor?_of_called hcall)) hq)
  | elapsed now _ => exact .inl hq
  | changed c => cases c <;> exact .inl hq

/-- A process that is over takes no step. -/
theorem proc_of_actor (hstep : step s l = some s') (hactor : l.actor? = some q) (answer : Answer) :
    s.procs[q]? ≠ some ⟨errand, .ended answer⟩ := by
  intro hq
  cases l with
  | advance p =>
    cases hactor
    simp [step, State.advance, hq] at hstep
  | startCall p k =>
    cases hactor
    simp [step, State.startCall, State.moveCall, hq] at hstep
  | settleCall p k =>
    cases hactor
    simp [step, State.settleCall, State.moveCall, hq] at hstep
  | _ => cases hactor

theorem State.answer?_eq_some {answer : Answer} :
    s.answer? p = some answer ↔ ∃ errand, s.procs[p]? = some ⟨errand, .ended answer⟩ := by
  unfold State.answer?
  split
  · next errand answer' hp => simp [hp]
  · next hp => simpa using fun errand => hp errand answer

/-- A process that is over stays over. -/
theorem answer_step (hl : Locked s) (hstep : step s l = some s') {answer : Answer}
    (hq : s.answer? q = some answer) : s'.answer? q = some answer := by
  obtain ⟨errand, hproc⟩ := State.answer?_eq_some.1 hq
  have hother : l.actor? ≠ some q := fun hactor => proc_of_actor hstep hactor answer hproc
  rcases proc_step hl hstep hother hproc with hsame | ⟨i, ⟨⟩, -⟩
  exact State.answer?_eq_some.2 ⟨errand, hsame⟩

theorem answer?_endProc (hl : Locked s) {old : Stage} (hp : s.procs[p]? = some ⟨errand, old⟩)
    (hheld : old.held? = some i) (answer : Answer) :
    (s.endProc p i answer).answer? p = some answer := by
  rcases State.procs_endProc hl hp hheld answer p with ⟨-, heq⟩ | ⟨hne, -⟩ | ⟨hne, -⟩
  · exact State.answer?_eq_some.2 ⟨errand, heq⟩
  · exact absurd rfl hne
  · exact absurd rfl hne

/-! ### What a process does -/

/-- What a step of a process can be that carries out a plan. -/
inductive WorkStep (s : State) (p : ProcId) (errand : Errand) (i : SlotId) (pass : Pass)
    (batch : Batch) : Label → State → Prop
  | issued {sl : Slot} {batch' : Batch} :
      s.slots[i]? = some sl → batch.handOut (State.isCancelled errand sl) = some batch' →
      WorkStep s p errand i pass batch (.advance p) (s.setStage p (.working i pass batch'))
  | started {k : Nat} {batch' : Batch} {engine : Engine} :
      batch.start k s.now s.engine = some (batch', engine) →
      WorkStep s p errand i pass batch (.startCall p k)
        (({ s with engine } : State).setStage p (.working i pass batch'))
  | settled {k : Nat} {batch' : Batch} {engine : Engine} :
      batch.settle k s.now s.engine = some (batch', engine) →
      WorkStep s p errand i pass batch (.settleCall p k)
        (({ s with engine } : State).setStage p (.working i pass batch'))
  | concluded {sl : Slot} {s' : State} :
      s.slots[i]? = some sl → batch.isDone →
      Follow s p errand i (pass.conclude s.fleet batch.outcomes) s' →
      WorkStep s p errand i pass batch (.advance p) s'

/-- What a step of a process can be that is at a stage. -/
inductive OwnMove (s : State) (p : ProcId) (errand : Errand) : Stage → Label → State → Prop
  | missed {id : String} : s.index.get? id = none →
      OwnMove s p errand (.lookup id) (.advance p)
        (s.setStage p (.ended (.failed (.deploymentNotFound id))))
  | looked {id : String} {i : SlotId} : s.index.get? id = some i →
      OwnMove s p errand (.lookup id) (.advance p) (s.setStage p (.approach i))
  | flagged (i : SlotId) : OwnMove s p errand (.flag i) (.advance p)
      ((s.modifySlot i fun sl => { sl with cancelled := true }).setStage p (.approach i))
  | locked {i : SlotId} {sl : Slot} : s.slots[i]? = some sl → sl.holder = none →
      OwnMove s p errand (.approach i) (.advance p)
        ((s.modifySlot i fun sl => { sl with holder := some p }).setStage p (.admitted i))
  | waited {i : SlotId} {sl : Slot} {holder : ProcId} : s.slots[i]? = some sl →
      sl.holder = some holder → OwnMove s p errand (.approach i) (.advance p)
        ((s.modifySlot i fun sl => { sl with queue := sl.queue ++ [p] }).setStage p (.queued i))
  | unplaced {i : SlotId} {sl : Slot} {work : Deployment} {e : Region.Error} : errand.IsPass →
      s.slots[i]? = some sl → Pass.start s.fleet sl.record.begun = .failed work e →
      OwnMove s p errand (.admitted i) (.advance p)
        (((s.mapRecord i fun _ => sl.record.begun).mapRecord i (·.absorb work)).endProc p i
          (.failed (.region e)))
  | turned {stage : Stage} {i : SlotId} {s₁ s' : State} {progress : Progress} :
      stage.held? = some i → Turn s p errand i s₁ progress → Follow s₁ p errand i progress s' →
      OwnMove s p errand stage (.advance p) s'
  | issued {i : SlotId} {sl : Slot} {pass : Pass} {batch batch' : Batch} :
      s.slots[i]? = some sl → batch.handOut (State.isCancelled errand sl) = some batch' →
      OwnMove s p errand (.working i pass batch) (.advance p)
        (s.setStage p (.working i pass batch'))
  | started {i : SlotId} {pass : Pass} {k : Nat} {batch batch' : Batch} {engine : Engine} :
      batch.start k s.now s.engine = some (batch', engine) →
      OwnMove s p errand (.working i pass batch) (.startCall p k)
        (({ s with engine } : State).setStage p (.working i pass batch'))
  | settled {i : SlotId} {pass : Pass} {k : Nat} {batch batch' : Batch} {engine : Engine} :
      batch.settle k s.now s.engine = some (batch', engine) →
      OwnMove s p errand (.working i pass batch) (.settleCall p k)
        (({ s with engine } : State).setStage p (.working i pass batch'))

/-- **A process moves as its stage has it.** -/
theorem ownMove_of_step (hp : s.procs[p]? = some ⟨errand, stage⟩) (hstep : step s l = some s')
    (hactor : l.actor? = some p) : OwnMove s p errand stage l s' := by
  have hself : ∀ {q : ProcId} {errand' : Errand} {stage' : Stage}, some q = some p →
      s.procs[q]? = some ⟨errand', stage'⟩ → q = p ∧ errand' = errand ∧ stage' = stage := by
    rintro q errand' stage' ⟨⟩ hq
    cases hq.symm.trans hp
    exact ⟨rfl, rfl, rfl⟩
  cases moves_of_step hstep with
  | missed hproc hget =>
    obtain ⟨rfl, rfl, rfl⟩ := hself hactor hproc
    exact .missed hget
  | looked hproc hget =>
    obtain ⟨rfl, rfl, rfl⟩ := hself hactor hproc
    exact .looked hget
  | flagged hproc =>
    obtain ⟨rfl, rfl, rfl⟩ := hself hactor hproc
    exact .flagged _
  | locked hproc hslot hholder =>
    obtain ⟨rfl, rfl, rfl⟩ := hself hactor hproc
    exact .locked hslot hholder
  | waited hproc hslot hholder =>
    obtain ⟨rfl, rfl, rfl⟩ := hself hactor hproc
    exact .waited hslot hholder
  | unplaced hproc hpass hslot hstart =>
    obtain ⟨rfl, rfl, rfl⟩ := hself hactor hproc
    exact .unplaced hpass hslot hstart
  | turned hturn hfollow =>
    obtain ⟨held, hproc, hheld⟩ := hturn.proc
    obtain ⟨rfl, rfl, rfl⟩ := hself hactor hproc
    exact .turned hheld hturn hfollow
  | issued hproc hslot hhand =>
    obtain ⟨rfl, rfl, rfl⟩ := hself hactor hproc
    exact .issued hslot hhand
  | called hproc hcall =>
    obtain ⟨rfl, rfl, rfl⟩ := hself ((actor?_of_called hcall).symm.trans hactor) hproc
    rcases hcall with ⟨rfl, hcall⟩ | ⟨rfl, hcall⟩
    · exact .started hcall
    · exact .settled hcall
  | _ => cases hactor

theorem workStep_of_step {pass : Pass} {batch : Batch} (hp : s.IsWorking p errand i pass batch)
    (hstep : step s l = some s') (hactor : l.actor? = some p) :
    WorkStep s p errand i pass batch l s' := by
  cases ownMove_of_step hp hstep hactor with
  | turned _ hturn hfollow =>
    cases hturn with
    | opened hproc _ _ _ => cases hproc.symm.trans hp
    | drained hproc _ => cases hproc.symm.trans hp
    | concluded hproc hslot _ hdone =>
      cases hproc.symm.trans hp
      exact .concluded hslot hdone hfollow
  | issued hslot hhand => exact .issued hslot hhand
  | started hcall => exact .started hcall
  | settled hcall => exact .settled hcall

/-- A process that carries out no plan moves by going on. -/
theorem advance_of_actor (hp : s.procs[p]? = some ⟨errand, stage⟩)
    (hidle : stage.isWorking = false) (hstep : step s l = some s') (hactor : l.actor? = some p) :
    l = .advance p := by
  cases ownMove_of_step hp hstep hactor with
  | started _ => cases hidle
  | settled _ => cases hidle
  | _ => rfl

/-- What becomes of a process on its way to the lock of a slot. -/
theorem entry_of_step (hl : Locked s) (hp : s.procs[p]? = some ⟨errand, stage⟩)
    (hslot : stage.slot? = some i) (hfree : stage.held? = none) (hstep : step s l = some s')
    (hactor : l.actor? = some p) :
    l = .advance p ∧ (stage = .flag i ∧ s'.procs[p]? = some ⟨errand, .approach i⟩ ∧
        s'.cancelledAt i = some true ∨
      stage = .approach i ∧ (s'.procs[p]? = some ⟨errand, .admitted i⟩ ∨
        s'.procs[p]? = some ⟨errand, .queued i⟩)) := by
  cases ownMove_of_step hp hstep hactor with
  | missed _ => cases hslot
  | looked _ => cases hslot
  | flagged _ =>
    cases hslot
    obtain ⟨sl, hsl⟩ : ∃ sl, s.slots[i]? = some sl :=
      ⟨_, List.getElem?_eq_getElem (hl.placed_proc hp rfl)⟩
    refine ⟨rfl, .inl ⟨rfl, State.procs_setStage_self hp _, ?_⟩⟩
    have hflag := State.slots_modifySlot (s := s) i i fun sl => { sl with cancelled := true }
    rw [if_pos rfl, hsl] at hflag
    exact congrArg (Option.map (·.cancelled)) hflag
  | locked _ _ =>
    cases hslot
    exact ⟨rfl, .inr ⟨rfl, .inl (State.procs_setStage_self hp _)⟩⟩
  | waited _ _ =>
    cases hslot
    exact ⟨rfl, .inr ⟨rfl, .inr (State.procs_setStage_self hp _)⟩⟩
  | unplaced _ _ _ => cases hfree
  | turned hheld _ _ => cases hfree.symm.trans hheld
  | issued _ _ => cases hfree
  | started _ => cases hfree
  | settled _ => cases hfree

/-- The end of a deployment begins to drain when it has the lock. -/
theorem drained_of_step {id : String} (hp : s.procs[p]? = some ⟨.delete id, .admitted i⟩)
    (hstep : step s l = some s') (hactor : l.actor? = some p) :
    l = .advance p ∧ ∃ sl, s.slots[i]? = some sl ∧
      Follow s p (.delete id) i ((Pass.startDrain s.wall sl.record).launch s.fleet) s' := by
  cases ownMove_of_step hp hstep hactor with
  | unplaced hpass _ _ => exact absurd rfl (hpass id)
  | turned _ hturn hfollow =>
    cases hturn with
    | opened _ hpass _ _ => exact absurd rfl (hpass id)
    | drained hproc hslot =>
      cases hproc.symm.trans hp
      exact ⟨rfl, _, hslot, hfollow⟩
    | concluded hproc _ _ _ => cases hproc.symm.trans hp

/-! ### The index -/

theorem index_endProc (p : ProcId) (i : SlotId) (answer : Answer) :
    (s.endProc p i answer).index = s.index ∧
      (s.endProc p i answer).slots.length = s.slots.length := by
  obtain ⟨slots, procs, heq⟩ := s.endProc_eq p i answer
  exact ⟨by rw [heq], State.length_release i⟩

theorem Turn.index {s₁ : State} {progress : Progress} (h : Turn s p errand i s₁ progress) :
    s₁.index = s.index ∧ s₁.slots.length = s.slots.length := by
  cases h with
  | opened _ _ _ _ => exact ⟨rfl, State.length_modifySlot ..⟩
  | drained _ _ => exact ⟨rfl, rfl⟩
  | concluded _ _ _ _ => exact ⟨rfl, rfl⟩

/-- The index changes when a deployment is founded and when one is deleted. -/
theorem index_step (hstep : step s l = some s') :
    s'.index = s.index ∧ s'.slots.length = s.slots.length ∨
    (∃ request fresh, l = .submit request fresh ∧ s.existing request = none ∧
      s.accept request fresh = .ok (s.found (s.newRecord request fresh),
        (s.newRecord request fresh).id) ∧
      s'.index = s.index.insert (s.newRecord request fresh).id s.slots.length ∧
      s'.slots.length = s.slots.length + 1) ∨
    ∃ id i, l = .delete id ∧ s.index.get? id = some i ∧ s'.index = s.index.erase id ∧
      s'.slots.length = s.slots.length := by
  have hslot : ∀ {s₁ : State} {i : SlotId} {f : Slot → Slot} {p : ProcId} {stage : Stage},
      ((s₁.modifySlot i f).setStage p stage).slots.length = s₁.slots.length :=
    State.length_modifySlot _ _
  cases moves_of_step hstep with
  | revised _ _ => exact .inl ⟨rfl, State.length_modifySlot ..⟩
  | @founded request fresh haccept hexist =>
    refine .inr (.inl ⟨request, fresh, rfl, hexist, haccept, rfl, ?_⟩)
    simp [State.spawn, State.found]
  | @unlisted id i hget => exact .inr (.inr ⟨id, i, rfl, hget, rfl, rfl⟩)
  | swept =>
    exact .inl (State.sweep_induction
      (P := fun s' => s'.index = s.index ∧ s'.slots.length = s.slots.length) ⟨rfl, rfl⟩
      fun _ _ _ hs' _ _ => hs')
  | flagged _ => exact .inl ⟨rfl, hslot⟩
  | locked _ _ _ => exact .inl ⟨rfl, hslot⟩
  | waited _ _ _ => exact .inl ⟨rfl, hslot⟩
  | @unplaced p _ i sl work e _ _ _ _ =>
    rw [State.mapRecord_mapRecord]
    obtain ⟨hindex, hlength⟩ :=
      index_endProc (s := s.mapRecord i fun _ => sl.record.begun.absorb work) p i
        (.failed (.region e))
    exact .inl ⟨hindex, hlength.trans (State.length_modifySlot ..)⟩
  | turned hturn hfollow =>
    obtain ⟨hindex, hlength⟩ := hturn.index
    rw [← hindex, ← hlength]
    cases hfollow with
    | dispatched pass _ => exact .inl ⟨rfl, rfl⟩
    | aborted pass _ => exact .inl (index_endProc ..)
    | published work report _ =>
      exact .inl ((index_endProc ..).imp_right (·.trans (State.length_modifySlot ..)))
    | deleted id work report _ => exact .inl (index_endProc ..)
  | changed c => cases c <;> exact .inl ⟨rfl, rfl⟩
  | _ => exact .inl ⟨rfl, rfl⟩

/-- No slot goes away. -/
theorem length_step (hstep : step s l = some s') : s.slots.length ≤ s'.slots.length := by
  rcases index_step hstep with ⟨-, h⟩ | ⟨_, _, -, -, -, -, h⟩ | ⟨_, _, -, -, -, h⟩ <;>
    omega

/-- What is listed after a step was listed before under the same id, or is a new slot. -/
theorem listed_step (hstep : step s l = some s') {id : String} (hget : s'.index.get? id = some i) :
    s.index.get? id = some i ∨ i = s.slots.length ∧ s'.slots.length = s.slots.length + 1 ∧
      ∃ request fresh, l = .submit request fresh ∧
        s.accept request fresh = .ok (s.found (s.newRecord request fresh),
          (s.newRecord request fresh).id) ∧ (s.newRecord request fresh).id = id := by
  rcases index_step hstep with ⟨hindex, -⟩ | ⟨request, fresh, hl, -, haccept, hindex, hlength⟩ |
    ⟨id', j, -, -, hindex, -⟩
  · exact .inl (hindex ▸ hget)
  · rw [hindex] at hget
    by_cases hid : id = (s.newRecord request fresh).id
    · rw [hid, SortedMap.get?_insert_self] at hget
      exact .inr ⟨(Option.some.inj hget).symm, hlength, request, fresh, hl, haccept, hid.symm⟩
    · exact .inl (by rwa [SortedMap.get?_insert_of_ne hid] at hget)
  · rw [hindex, SortedMap.get?_erase] at hget
    split at hget
    · cases hget
    · exact .inl hget

/-! ### Records -/

theorem State.recordAt_mapRecord_or (j i : SlotId) (f : Deployment → Deployment) :
    (s.mapRecord j f).recordAt i = s.recordAt i ∨ j = i := by
  rw [State.recordAt_mapRecord]
  by_cases hji : j = i
  · exact .inr hji
  · exact .inl (if_neg hji)

/-- The turn of a process changes the record of its slot, unless the process is the end of the
deployment. -/
theorem recordAt_turned {s₁ : State} {progress : Progress} (hturn : Turn s p errand j s₁ progress)
    (hfollow : Follow s₁ p errand j progress s') (hi : j ≠ i ∨ ¬ errand.IsPass) :
    s'.recordAt i = s.recordAt i := by
  have hmap : ∀ {s : State} (f : Deployment → Deployment), errand.IsPass →
      (s.mapRecord j f).recordAt i = s.recordAt i := fun f hpass =>
    (State.recordAt_mapRecord_or j i f).resolve_right (hi.resolve_right (absurd hpass))
  have hturned : s₁.recordAt i = s.recordAt i := by
    cases hturn with
    | @opened _ _ sl _ _ _ hpass _ _ => exact hmap (fun _ => sl.record.begun) hpass
    | drained _ _ => rfl
    | concluded _ _ _ _ => rfl
  rw [← hturned]
  cases hfollow with
  | dispatched pass _ => rfl
  | aborted pass _ => exact State.recordAt_endProc ..
  | published work report hpass => exact (State.recordAt_endProc ..).trans (hmap _ hpass)
  | deleted id work report _ => exact State.recordAt_endProc ..

/-- A record changes by a request for a listed deployment or by the process that holds the slot. -/
theorem record_step (hstep : step s l = some s') (hi : i < s.slots.length) :
    s'.recordAt i = s.recordAt i ∨ s.Listed i ∧ (∃ request fresh, l = .submit request fresh) ∨
      ∃ p, l = .advance p ∧ (s.stageAt p).bind Stage.held? = some i := by
  have hholds : ∀ {p : ProcId} {errand : Errand} {stage : Stage},
      s.procs[p]? = some ⟨errand, stage⟩ → stage.held? = some i →
      (s.stageAt p).bind Stage.held? = some i := fun hproc hheld => by
    rw [State.stageAt_of_proc hproc]
    exact hheld
  cases moves_of_step hstep with
  | @revised request fresh id j _ hget =>
    rcases s.recordAt_mapRecord_or j i (·.update request) with hsame | rfl
    · exact .inl hsame
    · exact .inr (.inl ⟨⟨id, hget⟩, request, fresh, rfl⟩)
  | @founded request fresh _ _ =>
    refine .inl ((State.recordAt_found (s := s) (s.newRecord request fresh) i).trans (if_neg ?_))
    exact Nat.ne_of_lt hi
  | swept => exact .inl (s.recordAt_sweep i)
  | flagged _ => exact .inl (State.recordAt_modifySlot (fun _ => by rfl) ..)
  | locked _ _ _ => exact .inl (State.recordAt_modifySlot (fun _ => by rfl) ..)
  | waited _ _ _ => exact .inl (State.recordAt_modifySlot (fun _ => by rfl) ..)
  | @unplaced p _ j sl work e hproc _ _ _ =>
    rw [State.mapRecord_mapRecord, State.recordAt_endProc]
    rcases s.recordAt_mapRecord_or j i fun _ => sl.record.begun.absorb work with hsame | rfl
    · exact .inl hsame
    · exact .inr (.inr ⟨p, rfl, hholds hproc rfl⟩)
  | @turned p errand j s₁ s' progress hturn hfollow =>
    by_cases hji : j = i
    · obtain ⟨stage, hproc, hheld⟩ := hturn.proc
      exact .inr (.inr ⟨p, rfl, hholds hproc (hji ▸ hheld)⟩)
    · exact .inl (recordAt_turned hturn hfollow (.inl hji))
  | changed c => cases c <;> exact .inl rfl
  | _ => exact .inl rfl

/-! ### States of a run -/

/-- Locks agree with the stages of the processes, the index lists slots that there are, each under
one id, and processes work on the plans of their passes. -/
structure Intact (s : State) : Prop where
  locked : Locked s
  bound : ∀ {id : String} {i : SlotId}, s.index.get? id = some i → i < s.slots.length
  injective : ∀ {id id' : String} {i : SlotId}, s.index.get? id = some i →
    s.index.get? id' = some i → id = id'
  plans : ∀ {p : ProcId} {errand : Errand} {i : SlotId} {pass : Pass} {batch : Batch},
    s.IsWorking p errand i pass batch → batch.dispatches = pass.plan

theorem State.Fresh.intact (h : s.Fresh) : Intact s where
  locked := Locked.of_fresh h.slots h.procs
  bound := fun {id i} hget => by
    rw [h.index, SortedMap.get?_empty] at hget
    cases hget
  injective := fun {id id' i} hget => by
    rw [h.index, SortedMap.get?_empty] at hget
    cases hget
  plans := fun hp => ((h.tracks (fun _ _ => True) fun _ _ _ _ => True).pass hp).1

theorem Intact.bound_step (h : Intact s) (hstep : step s l = some s') {id : String}
    (hget : s'.index.get? id = some i) : i < s'.slots.length := by
  rcases listed_step hstep hget with hold | ⟨rfl, hlength, -⟩
  · exact Nat.lt_of_lt_of_le (h.bound hold) (length_step hstep)
  · exact hlength ▸ Nat.lt_succ_self _

theorem Intact.injective_step (h : Intact s) (hstep : step s l = some s') {id id' : String}
    (hget : s'.index.get? id = some i) (hget' : s'.index.get? id' = some i) : id = id' := by
  rcases listed_step hstep hget with hold | ⟨hi, -, _, _, hl, -, hid⟩ <;>
    rcases listed_step hstep hget' with hold' | ⟨hi', -, _, _, hl', -, hid'⟩
  · exact h.injective hold hold'
  · exact absurd hi' (Nat.ne_of_lt (h.bound hold))
  · exact absurd hi (Nat.ne_of_lt (h.bound hold'))
  · cases hl.symm.trans hl'
    exact hid.symm.trans hid'

theorem Intact.step (h : Intact s) (hstep : step s l = some s') : Intact s' where
  locked := h.locked.step (fun _ _ hget => h.bound hget) hstep
  bound := h.bound_step hstep
  injective := h.injective_step hstep
  plans := fun hp => by
    have htracks : Tracks (fun _ _ => True) (fun _ _ _ _ => True) s :=
      ⟨fun _ => trivial, fun hq => ⟨h.plans hq, _, [], trivial, .opened⟩⟩
    have hkeep : Upkeep s l (fun _ _ => True) (fun _ _ => True) (fun _ _ _ _ => True)
        (fun _ _ _ _ => True) := by
      constructor <;> intros <;> trivial
    exact ((htracks.step hkeep hstep).pass hp).1

theorem Intact.run (h : Intact s) {labels : List Label} (hrun : run s labels = some s') :
    Intact s' :=
  run_induction (P := fun _ s' => Intact s') h (fun _ _ _ _ _ hs hstep => hs.step hstep) hrun

end

end Control

end FleetControl
