import FleetControl.Proofs.Control.Processes
import Mathlib.Algebra.Order.BigOperators.Group.Finset
import Mathlib.Data.Prod.Lex
import Mathlib.Order.OrderIsoNat

/-!
# Calls come to their end

Without further calls of clients the control plane moves by steps of its processes while time goes
by (`Control.Goes`). Whatever the order of these steps,

* they come to an end (`Control.not_diverges`), because every step brings a process closer to its
  own end (`Stage.Closer`) and no process further from it;
* they end only when every process is over (`Control.goes_or_over`): a process that waits for a lock
  waits for one that holds it (`Control.Manned`), and a batch is never stuck.
-/

namespace FleetControl

namespace Control

/-- Time goes by until an instant, and then a process takes a step. -/
def Goes (s s' : State) : Prop :=
  ∃ now l, s.now ≤ now ∧ l.actor?.isSome ∧ step { s with now } l = some s'

/-- The processes may go on for ever. -/
def Diverges (s : State) : Prop := ∃ f : Nat → State, f 0 = s ∧ ∀ n, Goes (f n) (f (n + 1))

/-! ### How far a process is from its end -/

namespace Stage

/-- How many stages are ahead of a process at most, with two plans for a pass. -/
def rank : Stage → Nat
  | .lookup _ | .flag _ => 6
  | .approach _ => 5
  | .queued _ => 4
  | .admitted _ => 3
  | .working _ pass _ => if pass.phase = .scale then 2 else 1
  | .ended _ => 0

/-- How many moves the plan of a process is from its end. -/
def weight : Stage → Nat
  | .working _ _ batch => batch.weight
  | _ => 0

/-- The first stage is closer to the end of a process than the other. -/
def Closer (new old : Stage) : Prop :=
  new.rank < old.rank ∨ new.rank = old.rank ∧ new.weight < old.weight

variable {stage : Stage} {i : SlotId} {pass : Pass} {batch batch' : Batch}

theorem rank_working_le : (working i pass batch).rank ≤ 2 := by
  unfold rank
  dsimp only
  split <;> simp

theorem rank_pos_of_held (h : stage.held? = some i) : 0 < stage.rank := by
  cases stage with
  | admitted i => simp [rank]
  | working i pass batch =>
    unfold rank
    dsimp only
    split <;> simp
  | _ => cases h

theorem Closer.rank_le {new old : Stage} (h : new.Closer old) : new.rank ≤ old.rank :=
  h.elim Nat.le_of_lt fun h => Nat.le_of_eq h.1

theorem closer_of_weight (h : batch'.weight < batch.weight) :
    (working i pass batch').Closer (working i pass batch) := .inr ⟨rfl, h⟩

end Stage

section

variable {s s' s₁ : State} {l : Label} {p q : ProcId} {errand : Errand} {stage : Stage} {i : SlotId}
  {progress : Progress}

/-- The plan that comes after a turn is the first of its pass, or the second. -/
theorem closer_of_dispatched {pass : Pass} {batch : Batch}
    (hturn : Turn s p errand i s₁ (.dispatching pass)) :
    ∃ old, s.procs[p]? = some ⟨errand, old⟩ ∧ (Stage.working i pass batch).Closer old := by
  have hle : (Stage.working i pass batch).rank ≤ 2 := Stage.rank_working_le
  generalize hprogress : Progress.dispatching pass = progress at hturn
  cases hturn with
  | opened hproc _ _ _ => exact ⟨_, hproc, .inl (Nat.lt_succ_of_le hle)⟩
  | drained hproc _ => exact ⟨_, hproc, .inl (Nat.lt_succ_of_le hle)⟩
  | @concluded _ _ sl pass₀ batch₀ hproc _ _ _ =>
    obtain ⟨hscale, rfl⟩ := Pass.proceed_dispatching hprogress.symm
    have hphase : pass₀.phase = .scale := hscale
    refine ⟨_, hproc, .inl ?_⟩
    simp [Stage.rank, hphase]

theorem closer_of_turn (hturn : Turn s p errand i s₁ progress) (answer : Answer) :
    ∃ old, s.procs[p]? = some ⟨errand, old⟩ ∧ (Stage.ended answer).Closer old := by
  obtain ⟨old, hproc, hheld⟩ := hturn.proc
  exact ⟨old, hproc, .inl (Stage.rank_pos_of_held hheld)⟩

/-- **A step of a process brings it closer to its end**, and no other further from it. -/
theorem closer_of_step (hl : Locked s) (hstep : step s l = some s') (hactor : l.actor? = some p)
    (hq : s'.procs[q]? = some ⟨errand, stage⟩) :
    ∃ old, s.procs[q]? = some ⟨errand, old⟩ ∧ (p ≠ q ∧ stage = old ∨ stage.Closer old) := by
  cases arrives_of_step hl hstep hq with
  | stayed hother hold =>
    refine ⟨_, hold, .inl ⟨?_, rfl⟩⟩
    rintro rfl
    exact hother hactor
  | handed _ hold => exact ⟨_, hold, .inr (.inl (by simp [Stage.rank]))⟩
  | missed hold _ => exact ⟨_, hold, .inr (.inl (by simp [Stage.rank]))⟩
  | looked hold _ => exact ⟨_, hold, .inr (.inl (by simp [Stage.rank]))⟩
  | flagged hold => exact ⟨_, hold, .inr (.inl (by simp [Stage.rank]))⟩
  | locked hold => exact ⟨_, hold, .inr (.inl (by simp [Stage.rank]))⟩
  | waited hold _ => exact ⟨_, hold, .inr (.inl (by simp [Stage.rank]))⟩
  | unplaced hold _ _ _ => exact ⟨_, hold, .inr (.inl (by simp [Stage.rank]))⟩
  | dispatched hturn =>
    obtain ⟨old, hold, hcloser⟩ := closer_of_dispatched hturn
    exact ⟨old, hold, .inr hcloser⟩
  | aborted hturn _ =>
    obtain ⟨old, hold, hcloser⟩ := closer_of_turn hturn .aborted
    exact ⟨old, hold, .inr hcloser⟩
  | finished hturn =>
    obtain ⟨old, hold, hcloser⟩ := closer_of_turn hturn (State.answerOf errand _ _)
    exact ⟨old, hold, .inr hcloser⟩
  | issued hold hhand =>
    exact ⟨_, hold, .inr (Stage.closer_of_weight (Batch.handOut_weight_lt hhand).1)⟩
  | called _ hold hmove => exact ⟨_, hold, .inr (Stage.closer_of_weight hmove.weight_lt.1)⟩
  | _ => cases hactor

/-! ### The processes together -/

theorem size_endProc (p : ProcId) (i : SlotId) (answer : Answer) :
    (s.endProc p i answer).procs.size = s.procs.size :=
  (State.size_release i).trans Array.size_modify

/-- A step of a process starts no other. -/
theorem size_step (hstep : step s l = some s') (hactor : l.actor? = some p) :
    s'.procs.size = s.procs.size := by
  cases moves_of_step hstep with
  | missed _ _ => exact Array.size_modify
  | looked _ _ => exact Array.size_modify
  | flagged _ => exact Array.size_modify
  | locked _ _ _ => exact Array.size_modify
  | waited _ _ _ => exact Array.size_modify
  | unplaced _ _ _ _ => exact size_endProc ..
  | turned hturn hfollow =>
    rw [← hturn.procs]
    cases hfollow with
    | dispatched pass _ => exact Array.size_modify
    | aborted pass _ => exact size_endProc ..
    | published work report _ => exact size_endProc ..
    | deleted id work report _ => exact size_endProc ..
  | issued _ _ _ => exact Array.size_modify
  | called _ _ => exact Array.size_modify
  | _ => cases hactor

/-- A number for each process, added up. -/
def State.total (s : State) (f : Stage → Nat) : Nat :=
  ∑ q ∈ Finset.range s.procs.size, (s.stageAt q).elim 0 f

/-- How far the processes are from their end together: the stages count first. -/
def State.distance (s : State) : Nat ×ₗ Nat := toLex (s.total Stage.rank, s.total Stage.weight)

/-- What is no process takes no step. -/
theorem lt_size_of_actor (hstep : step s l = some s') (hactor : l.actor? = some p) :
    p < s.procs.size := by
  by_contra hnone
  have hproc : s.procs[p]? = none := Array.getElem?_eq_none_iff.2 (Nat.le_of_not_lt hnone)
  cases l with
  | advance q => cases hactor; simp [step, State.advance, hproc] at hstep
  | startCall q k => cases hactor; simp [step, State.startCall, State.moveCall, hproc] at hstep
  | settleCall q k => cases hactor; simp [step, State.settleCall, State.moveCall, hproc] at hstep
  | _ => cases hactor

/-- No process goes away. -/
theorem exists_proc_step (hl : Locked s) (hstep : step s l = some s') (hq : q < s.procs.size) :
    q < s'.procs.size := by
  by_cases hactor : l.actor? = some q
  · rwa [size_step hstep hactor]
  · by_contra hnone
    have hgone : s'.procs[q]? = none := Array.getElem?_eq_none_iff.2 (Nat.le_of_not_lt hnone)
    rcases proc_step hl hstep hactor (Array.getElem?_eq_getElem hq) with hsame | ⟨i, -, hadmitted⟩
    · simp [hgone] at hsame
    · simp [hgone] at hadmitted

/-- Each process stays where it is or comes closer, and the one that takes the step comes closer. -/
theorem closer_all (hl : Locked s) (hstep : step s l = some s') (hactor : l.actor? = some p) :
    ∀ q ∈ Finset.range s.procs.size, ∃ old new, s.stageAt q = some old ∧ s'.stageAt q = some new ∧
      (p ≠ q ∧ new = old ∨ new.Closer old) := by
  intro q hq
  rw [Finset.mem_range, ← size_step hstep hactor] at hq
  have hproc := Array.getElem?_eq_getElem hq
  obtain ⟨old, hold, hcloser⟩ := closer_of_step hl hstep hactor hproc
  exact ⟨old, _, State.stageAt_of_proc hold, State.stageAt_of_proc hproc, hcloser⟩

/-- A step of a process brings the processes together closer to their end. -/
theorem distance_lt (hl : Locked s) (hstep : step s l = some s') (hactor : l.actor? = some p) :
    s'.distance < s.distance := by
  have hall := closer_all hl hstep hactor
  have hrank : ∀ q ∈ Finset.range s.procs.size,
      (s'.stageAt q).elim 0 Stage.rank ≤ (s.stageAt q).elim 0 Stage.rank := by
    intro q hq
    obtain ⟨old, new, hold, hnew, ⟨-, rfl⟩ | hcloser⟩ := hall q hq
    · rw [hold, hnew]
    · rw [hold, hnew]
      exact hcloser.rank_le
  rw [State.distance, State.distance, Prod.Lex.toLex_lt_toLex]
  unfold State.total
  rw [size_step hstep hactor]
  rcases Nat.lt_or_eq_of_le (Finset.sum_le_sum hrank) with hlt | heq
  · exact .inl hlt
  · -- no process changes its rank, so the plan of the one that takes the step moves
    have hsame := (Finset.sum_eq_sum_iff_of_le hrank).1 heq
    have hweight : ∀ q ∈ Finset.range s.procs.size, ∃ old new, s.stageAt q = some old ∧
        s'.stageAt q = some new ∧ (p ≠ q ∧ new = old ∨ new.weight < old.weight) := by
      intro q hq
      obtain ⟨old, new, hold, hnew, hcloser⟩ := hall q hq
      have hstays : new.rank = old.rank := by simpa [hold, hnew] using hsame q hq
      refine ⟨old, new, hold, hnew, hcloser.imp_right ?_⟩
      rintro (hlt | ⟨-, hlt⟩)
      · exact absurd hstays (Nat.ne_of_lt hlt)
      · exact hlt
    have hp := Finset.mem_range.2 (lt_size_of_actor hstep hactor)
    refine .inr ⟨heq, Finset.sum_lt_sum (fun q hq => ?_) ⟨p, hp, ?_⟩⟩
    · obtain ⟨old, new, hold, hnew, ⟨-, rfl⟩ | hlt⟩ := hweight q hq
      · rw [hold, hnew]
      · rw [hold, hnew]
        exact Nat.le_of_lt hlt
    · obtain ⟨old, new, hold, hnew, ⟨hne, -⟩ | hlt⟩ := hweight p hp
      · exact absurd rfl hne
      · rw [hold, hnew]
        exact hlt

theorem Intact.elapse (h : Intact s) {now : Nat} (hnow : s.now ≤ now) :
    Intact { s with now } :=
  h.step (l := .elapse now) (if_pos hnow)

theorem Goes.distance_lt (h : Goes s s') (hI : Intact s) : s'.distance < s.distance := by
  obtain ⟨now, l, hnow, hactor, hstep⟩ := h
  obtain ⟨p, hp⟩ := Option.isSome_iff_exists.1 hactor
  exact Control.distance_lt (s := { s with now }) (hI.elapse hnow).locked hstep hp

theorem Goes.intact (h : Goes s s') (hI : Intact s) : Intact s' := by
  obtain ⟨now, l, hnow, -, hstep⟩ := h
  exact (hI.elapse hnow).step hstep

/-- **The processes do not go on for ever.** -/
theorem not_diverges (hI : Intact s) : ¬ Diverges s := by
  rintro ⟨f, rfl, hgoes⟩
  have hintact : ∀ n, Intact (f n) := by
    intro n
    induction n with
    | zero => exact hI
    | succ n ih => exact (hgoes n).intact ih
  exact not_strictAnti_of_wellFoundedLT (fun n => (f n).distance)
    (strictAnti_nat_of_succ_lt fun n => (hgoes n).distance_lt (hintact n))

/-! ### Nobody is stuck -/

/-- Who waits for a lock waits for one that holds it. -/
def Manned (s : State) : Prop :=
  ∀ ⦃i : SlotId⦄ ⦃sl : Slot⦄, s.slots[i]? = some sl → sl.queue ≠ [] → sl.holder.isSome

theorem Manned.modifySlot (h : Manned s) {f : Slot → Slot} {j : SlotId}
    (hf : ∀ sl, s.slots[j]? = some sl → (sl.queue ≠ [] → sl.holder.isSome) →
      (f sl).queue ≠ [] → (f sl).holder.isSome) : Manned (s.modifySlot j f) := by
  intro i sl hsl
  rw [State.slots_modifySlot] at hsl
  split at hsl
  · next hji =>
    subst hji
    obtain ⟨sl₀, hsl₀, rfl⟩ := Option.map_eq_some_iff.1 hsl
    exact hf sl₀ hsl₀ (h hsl₀)
  · exact h hsl

theorem Manned.mapRecord (h : Manned s) (j : SlotId) (f : Deployment → Deployment) :
    Manned (s.mapRecord j f) := by
  refine h.modifySlot ?_
  intro sl _ hsl
  exact hsl

theorem Manned.endProc (h : Manned s) (p : ProcId) (j : SlotId) (answer : Answer) :
    Manned (s.endProc p j answer) := by
  intro i sl hsl
  rw [State.endProc, State.slots_release] at hsl
  split at hsl
  · -- the first that waits gets the lock
    obtain ⟨⟨record, cancelled, holder, queue⟩, -, rfl⟩ := Option.map_eq_some_iff.1 hsl
    cases queue <;> simp
  · exact h hsl

theorem Manned.found (h : Manned s) (d : Deployment) : Manned (s.found d) := by
  intro i sl hsl
  rw [State.slots_found] at hsl
  split at hsl
  · cases hsl
    simp
  · exact h hsl

theorem State.Fresh.manned (h : s.Fresh) : Manned s := by
  intro i sl hsl
  simp [h.slots] at hsl

theorem Manned.step (h : Manned s) (hstep : Control.step s l = some s') : Manned s' := by
  cases moves_of_step hstep with
  | @revised request _ _ j _ _ => exact h.mapRecord j (·.update request)
  | @founded request fresh _ _ => exact h.found (s.newRecord request fresh)
  | swept => exact State.sweep_induction (P := Manned) h fun _ _ _ hs' _ _ => hs'
  | @flagged p errand j _ =>
    have hflag : Manned (s.modifySlot j fun sl => { sl with cancelled := true }) :=
      h.modifySlot (by intro sl _ hsl; exact hsl)
    exact hflag
  | @locked p errand j sl _ _ _ =>
    have hlock : Manned (s.modifySlot j fun sl => { sl with holder := some p }) :=
      h.modifySlot (by simp)
    exact hlock
  | @waited p holder errand j sl _ hslot hholder =>
    have hwait : Manned (s.modifySlot j fun sl => { sl with queue := sl.queue ++ [p] }) := by
      refine h.modifySlot ?_
      intro sl₀ hsl₀ _ _
      rw [hslot] at hsl₀
      cases hsl₀
      simp [hholder]
    exact hwait
  | unplaced _ _ _ _ => exact ((h.mapRecord ..).mapRecord ..).endProc ..
  | @turned p errand j s₁ s' progress hturn hfollow =>
    have h₁ : Manned s₁ := by
      cases hturn with
      | @opened _ _ sl _ _ _ _ _ _ =>
        have hmap : Manned (s.mapRecord j fun _ => sl.record.begun) := h.mapRecord ..
        exact hmap
      | drained _ _ => exact h
      | concluded _ _ _ _ => exact h
    cases hfollow with
    | dispatched pass _ => exact h₁
    | aborted pass _ => exact h₁.endProc ..
    | published work report _ => exact (h₁.mapRecord ..).endProc ..
    | deleted id work report _ => exact h₁.endProc ..
  | changed c => cases c <;> exact h
  | _ => exact h

/-- Plans under way have permits. -/
def Permitted (s : State) : Prop :=
  ∀ ⦃p : ProcId⦄ ⦃errand : Errand⦄ ⦃i : SlotId⦄ ⦃pass : Pass⦄ ⦃batch : Batch⦄,
    s.IsWorking p errand i pass batch → 0 < batch.permits

theorem State.Fresh.permitted (h : s.Fresh) : Permitted s := by
  intro p errand i pass batch hp
  simp [State.IsWorking, h.procs] at hp

theorem Permitted.step (h : Permitted s) (hl : Locked s) (hstep : Control.step s l = some s') :
    Permitted s' := by
  intro p errand i pass batch hp
  cases arrives_of_step hl hstep hp with
  | stayed _ hold => exact h hold
  | dispatched _ => exact (Batch.uncancelled_ofPlan ..).permits
  | issued hold hhand => exact (Batch.handOut_weight_lt hhand).2 ▸ h hold
  | called _ hold hmove => exact hmove.weight_lt.2 ▸ h hold

/-- What keeps the processes going. -/
structure Lively (s : State) : Prop where
  intact : Intact s
  manned : Manned s
  permitted : Permitted s

theorem State.Fresh.lively (h : s.Fresh) : Lively s := ⟨h.intact, h.manned, h.permitted⟩

theorem Lively.step (h : Lively s) (hstep : Control.step s l = some s') : Lively s' :=
  ⟨h.intact.step hstep, h.manned.step hstep, h.permitted.step h.intact.locked hstep⟩

theorem Lively.run (h : Lively s) {labels : List Label} (hrun : Control.run s labels = some s') :
    Lively s' :=
  run_induction (P := fun _ s' => Lively s') h (fun _ _ _ _ _ hs hstep => hs.step hstep) hrun

theorem exists_goes (h : (s.advance p).isSome) : ∃ s', Goes s s' := by
  obtain ⟨s', hs'⟩ := Option.isSome_iff_exists.1 h
  exact ⟨s', s.now, .advance p, Nat.le_refl _, rfl, hs'⟩

theorem exists_slot (hl : Locked s) (hp : s.procs[p]? = some ⟨errand, stage⟩)
    (hslot : stage.slot? = some i) : ∃ sl, s.slots[i]? = some sl :=
  ⟨_, List.getElem?_eq_getElem (hl.placed_proc hp hslot)⟩

section

variable {pass : Pass} {b : Batch} {k : Nat}

theorem step_of_ready (hp : s.IsWorking p errand i pass b) (hk : b.Ready k) :
    ∃ s', Control.step s (.startCall p k) = some s' := by
  have hproc : s.procs[p]? = some ⟨errand, .working i pass b⟩ := hp
  obtain ⟨⟨b', engine⟩, hstart⟩ := Option.isSome_iff_exists.1 (hk.start_isSome s.now s.engine)
  simp [Control.step, State.startCall, State.moveCall, hproc, hstart]

theorem step_of_free (hI : Intact s) (hp : s.IsWorking p errand i pass b)
    (hpending : b.calls.any Call.isPending) (hfree : b.inFlight < b.permits) :
    ∃ s', Control.step s (.advance p) = some s' := by
  have hproc : s.procs[p]? = some ⟨errand, .working i pass b⟩ := hp
  obtain ⟨sl, hslot⟩ := exists_slot hI.locked hproc rfl
  obtain ⟨b', hhand⟩ := Option.isSome_iff_exists.1
    (Batch.handOut_isSome hpending hfree (State.isCancelled errand sl))
  simp [Control.step, State.advance, hproc, hslot, State.proceed, hhand]

theorem step_of_due (hp : s.IsWorking p errand i pass b) {x : Dispatch} {due : Nat}
    {givenUp : Bool} (hk : b.calls[k]? = some ⟨x, .running due givenUp⟩) (hdue : due ≤ s.now) :
    ∃ s', Control.step s (.settleCall p k) = some s' := by
  have hproc : s.procs[p]? = some ⟨errand, .working i pass b⟩ := hp
  obtain ⟨⟨b', engine⟩, hsettle⟩ :=
    Option.isSome_iff_exists.1 (Batch.settle_isSome hk hdue s.engine)
  simp [Control.step, State.settleCall, State.moveCall, hproc, hsettle]

/-- A process that carries out a plan goes on, once a call is due. -/
theorem goes_of_working (h : Lively s) (hp : s.IsWorking p errand i pass b) : ∃ s', Goes s s' := by
  by_cases hdone : b.isDone
  · obtain ⟨s', hstep⟩ := exists_step_of_isDone h.intact hp hdone
    exact ⟨s', s.now, .advance p, Nat.le_refl _, rfl, hstep⟩
  · cases Batch.next (h.permitted hp) (Bool.not_eq_true _ ▸ hdone) with
    | start hk _ =>
      obtain ⟨s', hstep⟩ := step_of_ready hp hk
      exact ⟨s', s.now, _, Nat.le_refl _, rfl, hstep⟩
    | handOut hpending hfree =>
      obtain ⟨s', hstep⟩ := step_of_free h.intact hp hpending hfree
      exact ⟨s', s.now, _, Nat.le_refl _, rfl, hstep⟩
    | @settle k x due givenUp _ hk _ =>
      obtain ⟨s', hstep⟩ := step_of_due (s := { s with now := max s.now due }) hp hk
        (Nat.le_max_right ..)
      exact ⟨s', max s.now due, _, Nat.le_max_left .., rfl, hstep⟩

end

theorem goes_of_held (h : Lively s) (hp : s.procs[p]? = some ⟨errand, stage⟩)
    (hheld : stage.held? = some i) : ∃ s', Goes s s' := by
  cases stage with
  | admitted j =>
    obtain ⟨sl, hslot⟩ := exists_slot h.intact.locked hp rfl
    exact exists_goes (p := p) (by cases errand <;> simp [State.advance, hp, hslot])
  | working j pass batch => exact goes_of_working h hp
  | _ => cases hheld

/-- A process that is not over, or the one that it waits for, goes on. -/
theorem goes_of_unanswered (h : Lively s) (hp : s.procs[p]? = some ⟨errand, stage⟩)
    (hnone : s.answer? p = none) : ∃ s', Goes s s' := by
  cases stage with
  | lookup id =>
    exact exists_goes (p := p) (by cases hget : s.index.get? id <;> simp [State.advance, hp, hget])
  | flag j => exact exists_goes (p := p) (by simp [State.advance, hp])
  | approach j =>
    obtain ⟨sl, hslot⟩ := exists_slot h.intact.locked hp rfl
    exact exists_goes (p := p) (by simp [State.advance, hp, hslot])
  | queued j =>
    obtain ⟨sl, hslot⟩ := exists_slot h.intact.locked hp rfl
    have hwaits : p ∈ s.queue j :=
      (h.intact.locked.waits p j).2 (by rw [State.stageAt_of_proc hp]; rfl)
    rw [State.queue_of_slot hslot] at hwaits
    obtain ⟨holder, hholder⟩ :=
      Option.isSome_iff_exists.1 (h.manned hslot (List.ne_nil_of_mem hwaits))
    have hholds := (h.intact.locked.holds holder j).1 ((State.holder_of_slot hslot).trans hholder)
    obtain ⟨st, hst, hheld⟩ := Option.bind_eq_some_iff.1 hholds
    obtain ⟨⟨errand', _⟩, hproc, rfl⟩ := Option.map_eq_some_iff.1 hst
    exact goes_of_held h hproc hheld
  | admitted j => exact goes_of_held h hp rfl
  | working j pass batch => exact goes_of_working h hp
  | ended answer => simp [State.answer?, hp] at hnone

/-- **The processes go on until all are over.** -/
theorem goes_or_over (h : Lively s) :
    (∃ s', Goes s s') ∨ ∀ q < s.procs.size, (s.answer? q).isSome := by
  by_cases hall : ∀ q < s.procs.size, (s.answer? q).isSome
  · exact .inr hall
  · push Not at hall
    obtain ⟨q, hq, hnone⟩ := hall
    exact .inl (goes_of_unanswered h (Array.getElem?_eq_getElem hq)
      (Option.not_isSome_iff_eq_none.1 (by simpa using hnone)))

end

end Control

end FleetControl
