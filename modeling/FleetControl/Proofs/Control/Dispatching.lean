import FleetControl.Proofs.Control.Admission
import FleetControl.Proofs.Control.Numbering
import FleetControl.Proofs.Dispatch.Schedule

/-!
# How a batch is carried out

A process that takes a turn may come to a plan, whose batch it carries out (`Control.Carrying`):
other processes and clients do what they like meanwhile, deletions included, but the nodes stay as
they are, and time goes by only while the batch can do nothing else. `Control.Conducted` is what is
promised of the batch in every state of every such run:

* calls are handed out in the order of the plan, as many at a time as there are permits, and those
  that were handed out begin once each;
* call `k` begins by `k / permits` time limits after the batch, and the batch is over when as many
  time limits have passed as it takes to go through the plan with all permits;
* it can always be brought to its end, by as many steps as the calls take;
* in the end there is an outcome for each dispatch, in the order of the plan: that of its node for
  those that were handed out, and a cancellation for the others, if the deployment was deleted.
-/

namespace FleetControl

namespace Control

namespace State

variable (s : State) (p : ProcId)

/-- How many calls of a batch may be in flight. -/
def permits : Nat := max s.settings.maxConcurrentDispatches.toNat 1

/-- The time limit of a call. -/
def timeLimit : Nat := s.settings.dispatchTimeoutMs.toNat

/-- The place of the call that the process hands out in a step. -/
def issue? : Label → Option Nat
  | .advance q =>
    if q = p then
      match s.procs[p]? with
      | some ⟨errand, .working i _ batch⟩ =>
        (s.slots[i]?).bind fun sl =>
          if isCancelled errand sl then none
          else (batch.handOut false).map fun _ => batch.calls.findIdx Call.isPending
      | _ => none
    else none
  | _ => none

/-- The place of the call that the process begins in a step, and the time. -/
def start? : Label → Option (Nat × Nat)
  | .startCall q k => if q = p then some (k, s.now) else none
  | _ => none

/-- What the process is for that has a lock and has not begun, and the slot. -/
def admitted? : Option (Errand × SlotId) :=
  match s.procs[p]? with
  | some ⟨errand, .admitted i⟩ => some (errand, i)
  | _ => none

/-- The process can take no step. -/
def Waits : Prop := ∀ l, l.actor? = some p → step s l = none

end State

/-- The places of the calls that the process hands out in a run, in turn. -/
def issues (p : ProcId) (s₀ : State) (labels : List Label) : List Nat :=
  gather (·.issue? p) s₀ labels

/-- The places of the calls that the process begins in a run, in turn and with the time of each. -/
def callStarts (p : ProcId) (s₀ : State) (labels : List Label) : List (Nat × Nat) :=
  gather (·.start? p) s₀ labels

/-- How many steps of a run are of the process. -/
def efforts (p : ProcId) (labels : List Label) : Nat := labels.countP fun l => l.actor? == some p

/-- A step while the process carries out a batch. The nodes stay as they are. Time goes by while the
process waits, and no further than a call of it is due. If calls begin in turn, one that is handed
out begins before those that are handed out later. -/
structure Carries (inTurn : Prop) (p : ProcId) (errand : Errand) (i : SlotId) (pass : Pass)
    (s : State) (b : Batch) (l : Label) (s' : State) (b' : Batch) : Prop where
  step : step s l = some s'
  working : s'.IsWorking p errand i pass b'
  nodes : s.engine.SameNodes s'.engine
  patient : ∀ t, l = .elapse t → s.Waits p ∧ b.DueFrom t
  turn : inTurn → ∀ k, l = .startCall p k → ∀ j < k, ¬ b.Ready j

/-- The process carries out the batch of its plan, from `s₀` on. -/
inductive Carrying (inTurn : Prop) (p : ProcId) (errand : Errand) (i : SlotId) (pass : Pass)
    (s₀ : State) : List Label → State → Batch → Prop
  | begun : Carrying inTurn p errand i pass s₀ [] s₀ (s₀.batchOf pass.plan)
  | carried {labels : List Label} {s s' : State} {b b' : Batch} {l : Label} :
      Carrying inTurn p errand i pass s₀ labels s b →
      Carries inTurn p errand i pass s b l s' b' →
      Carrying inTurn p errand i pass s₀ (labels ++ [l]) s' b'

section

variable {s₀ s s' s₁ : State} {labels : List Label} {l : Label} {p : ProcId} {errand : Errand}
  {i : SlotId} {pass : Pass} {b b' : Batch} {m k : Nat} {inTurn : Prop} {progress : Progress}

/-! ### The beginning -/

theorem State.admitted?_eq_some :
    s.admitted? p = some (errand, i) ↔ s.procs[p]? = some ⟨errand, .admitted i⟩ := by
  unfold State.admitted?
  split
  · next errand' j hp => simp [hp]
  · next hp => simpa using hp errand i

/-- A process that can take a turn does so by going on. -/
theorem step_of_turn (hturn : Turn s p errand i s₁ progress) :
    step s (.advance p) = some (s₁.follow p errand i progress) := by
  cases hturn with
  | @opened _ _ sl pass selector hproc hpass hslot hstart =>
    have hopened : (s.modifySlot i fun sl' => { sl' with record := sl.record.begun }) =
        s.mapRecord i fun _ => sl.record.begun := rfl
    have hfleet : (s.mapRecord i fun _ => sl.record.begun).fleet = s.fleet := rfl
    have hbegin : s.startPass p errand i sl =
        ({ s.mapRecord i fun _ => sl.record.begun with selector } : State).follow p errand i
          (pass.launch { s.fleet with selector }) := by
      unfold State.startPass
      dsimp only
      rw [← Deployment.begun, hopened, hfleet, hstart]
      rfl
    rw [← hbegin]
    cases errand with
    | delete id => exact absurd rfl (hpass id)
    | _ => simp [step, State.advance, hproc, hslot]
  | @drained id _ sl hproc hslot => simp [step, State.advance, hproc, hslot, State.startDrain]
  | @concluded _ _ sl pass batch hproc hslot hout hdone =>
    simp [step, State.advance, hproc, hslot, State.proceed, hout, hdone]

theorem Turn.now (hturn : Turn s p errand i s₁ progress) : s₁.now = s.now := by
  cases hturn <;> rfl

/-- The process carries out the plan that it comes to, if permits can be counted. -/
theorem working_of_turn (hcap : Countable s) (hturn : Turn s p errand i s₁ (.dispatching pass)) :
    ∃ s', step s (.advance p) = some s' ∧ s'.now = s.now ∧
      s'.IsWorking p errand i pass (s'.batchOf pass.plan) := by
  generalize hfollow : s₁.follow p errand i (.dispatching pass) = s'
  have hstep := step_of_turn hturn
  rw [hfollow] at hstep
  obtain ⟨stage, hproc, -⟩ := hturn.proc
  rw [← hturn.procs] at hproc
  cases follow_of_eq hfollow with
  | dispatched _ _ => exact ⟨_, hstep, hturn.now, State.procs_setStage_self hproc _⟩
  | aborted _ hover => exact absurd hover (Nat.not_lt.2 ((hcap.turn hturn).permits_le _))

/-! ### Steps -/

theorem now_endProc (p : ProcId) (i : SlotId) (answer : Answer) :
    (s.endProc p i answer).now = s.now := by
  obtain ⟨slots, procs, heq⟩ := s.endProc_eq p i answer
  rw [heq]

/-- The clock changes when time goes by. -/
theorem now_step (hstep : step s l = some s') :
    s'.now = s.now ∨ ∃ t, l = .elapse t ∧ s.now ≤ t ∧ s'.now = t := by
  cases moves_of_step hstep with
  | swept =>
    exact .inl (State.sweep_induction (P := fun s' => s'.now = s.now) rfl fun _ _ _ hs' _ _ => hs')
  | unplaced _ _ _ _ => exact .inl (now_endProc ..)
  | turned hturn hfollow =>
    rw [← hturn.now]
    cases hfollow with
    | dispatched pass _ => exact .inl rfl
    | aborted pass _ => exact .inl (now_endProc ..)
    | published work report _ => exact .inl (now_endProc ..)
    | deleted id work report _ => exact .inl (now_endProc ..)
  | elapsed now hnow => exact .inr ⟨now, rfl, hnow, rfl⟩
  | changed c => cases c <;> exact .inl rfl
  | _ => exact .inl rfl

theorem start?_of_other (h : l.actor? ≠ some p) : s.start? p l = none := by
  cases l with
  | startCall q k => exact if_neg fun hq => h (congrArg some hq)
  | _ => rfl

theorem startCall_of_start? {t : Nat} (h : s.start? p l = some (k, t)) : l = .startCall p k := by
  cases l with
  | startCall q j =>
    rw [State.start?] at h
    split at h
    · next hq => cases h; rw [hq]
    · cases h
  | _ => cases h

theorem issue?_of_other (h : l.actor? ≠ some p) : s.issue? p l = none := by
  cases l with
  | advance q => exact if_neg fun hq => h (congrArg some hq)
  | _ => rfl

/-- What the process does in a step of its own. -/
structure Own (p : ProcId) (errand : Errand) (i : SlotId) (s : State) (m : Nat) (b : Batch)
    (l : Label) (m' : Nat) (b' : Batch) : Prop where
  advances : ∃ place, b.Advances s.engine s.now m place m' b' ∧
    s.start? p l = place.map (·, s.now)
  issue : m' = m ∧ s.issue? p l = none ∨ m' = m + 1 ∧ s.issue? p l = some m
  weight : b'.weight < b.weight
  uncancelled : b.Uncancelled → b'.Uncancelled ∨ errand.IsPass ∧ s.cancelledAt i = some true

/-- **A step of the process is a move of its batch.** -/
theorem own_of_step (hp : s.IsWorking p errand i pass b) (hdone : b.isDone = false)
    (hordered : b.Ordered m) (hstep : step s l = some s') (hactor : l.actor? = some p) :
    ∃ m' b', s'.IsWorking p errand i pass b' ∧ s'.now = s.now ∧ s.engine.SameNodes s'.engine ∧
      Own p errand i s m b l m' b' := by
  have hproc : s.procs[p]? = some ⟨errand, .working i pass b⟩ := hp
  cases workStep_of_step hp hstep hactor with
  | @issued sl b' hslot hhand =>
    have hadvances := hordered.advances_handOut hhand s.engine s.now
    refine ⟨_, b', State.procs_setStage_self hp _, rfl, .refl _, ⟨none, hadvances, rfl⟩, ?_,
      (Batch.handOut_weight_lt hhand).1, fun hb => ?_⟩
    · obtain ⟨hpending, -, -⟩ := Batch.handOut_eq_some hhand
      cases hcancelled : State.isCancelled errand sl with
      | true => exact .inl ⟨rfl, by simp [State.issue?, hproc, hslot, hcancelled]⟩
      | false =>
        rw [hcancelled] at hhand
        refine .inr ⟨rfl, ?_⟩
        simp [State.issue?, hproc, hslot, hcancelled, hhand, hordered.findIdx_isPending hpending]
    · cases hcancelled : State.isCancelled errand sl with
      | true =>
        -- only passes look at the flag
        refine .inr ?_
        cases errand with
        | delete id => cases hcancelled
        | _ =>
          rw [State.cancelledAt, hslot]
          exact ⟨by rintro id ⟨⟩, congrArg some hcancelled⟩
      | false =>
        rw [hcancelled] at hhand
        exact .inl (Batch.uncancelled_handOut hhand hb).1
  | @started k b' engine hstart =>
    exact ⟨m, b', State.procs_setStage_self hp _, rfl, (Batch.callMove_start hstart).sameNodes,
      ⟨some k, Batch.advances_start hstart m, if_pos rfl⟩, .inl ⟨rfl, rfl⟩,
      (Batch.Move.start hstart).weight_lt.1, fun hb => .inl (Batch.uncancelled_start hstart hb).2.1⟩
  | @settled k b' engine hsettle =>
    exact ⟨m, b', State.procs_setStage_self hp _, rfl, (Batch.callMove_settle hsettle).sameNodes,
      ⟨none, Batch.advances_settle hsettle m, rfl⟩, .inl ⟨rfl, rfl⟩,
      (Batch.Move.settle hsettle).weight_lt.1,
      fun hb => .inl (Batch.uncancelled_settle hsettle hb).1⟩
  | concluded _ hdone' _ => exact absurd hdone' (by simp [hdone])

/-! ### Runs -/

/-- How far the process has come with the batch of its plan, of which the first `m` calls were
handed out. -/
structure Underway (inTurn : Prop) (p : ProcId) (errand : Errand) (i : SlotId) (pass : Pass)
    (s₀ : State) (labels : List Label) (s : State) (b : Batch) (m : Nat) : Prop where
  run : Control.run s₀ labels = some s
  intact : Intact s
  working : s.IsWorking p errand i pass b
  nodes : s₀.engine.SameNodes s.engine
  permits : b.permits = s₀.permits
  timeLimit : b.timeout = s₀.timeLimit
  dispatches : b.dispatches = pass.plan
  inFlight : b.inFlight ≤ b.permits
  ordered : b.Ordered m
  owned : b.Owned s₀.engine
  onTime : b.OnTime s₀.now s.now
  logged : b.Logged s₀.now s.now (callStarts p s₀ labels)
  inOrder : issues p s₀ labels = List.range m
  turns : inTurn →
    (callStarts p s₀ labels).map Prod.fst = List.range (callStarts p s₀ labels).length
  uncancelled : b.Uncancelled ∨ errand.IsPass ∧ s.cancelledAt i = some true
  timely : s.now ≤
    s₀.now + (pass.plan.length + s₀.permits - 1) / s₀.permits * s₀.timeLimit
  short : efforts p labels + b.weight ≤ 3 * pass.plan.length

theorem Underway.length (h : Underway inTurn p errand i pass s₀ labels s b m) :
    b.calls.length = pass.plan.length := by
  rw [← h.dispatches, Batch.dispatches, List.length_map]

theorem Underway.permits_pos (h : Underway inTurn p errand i pass s₀ labels s b m) :
    0 < b.permits :=
  h.permits ▸ Nat.lt_of_lt_of_le one_pos (Nat.le_max_right ..)

theorem underway_begun (hI : Intact s₀) (hp : s₀.IsWorking p errand i pass (s₀.batchOf pass.plan)) :
    Underway inTurn p errand i pass s₀ [] s₀ (s₀.batchOf pass.plan) 0 where
  run := rfl
  intact := hI
  working := hp
  nodes := .refl _
  permits := rfl
  timeLimit := rfl
  dispatches := Batch.dispatches_ofPlan ..
  inFlight := by
    rw [Batch.inFlight_eq_zero fun c hc hflight => ?_]
    · exact Nat.zero_le _
    · obtain ⟨x, -, rfl⟩ := List.mem_map.1 hc
      cases hflight
  ordered := Batch.ordered_ofPlan ..
  owned := Batch.owned_ofPlan ..
  onTime := Batch.onTime_ofPlan ..
  logged := Batch.logged_ofPlan ..
  inOrder := rfl
  turns := fun _ => rfl
  uncancelled := .inl (Batch.uncancelled_ofPlan ..)
  timely := Nat.le_add_right ..
  short := by
    rw [State.batchOf, Batch.weight_ofPlan]
    exact Nat.le_of_eq (Nat.zero_add _)

/-- A step of the process that does not conclude the batch finds it unfinished. -/
theorem Carries.not_isDone (h : Carries inTurn p errand i pass s b l s' b') (hl : Locked s)
    (hp : s.IsWorking p errand i pass b) (hactor : l.actor? = some p) : b.isDone = false := by
  obtain ⟨old, hold, hcloser⟩ := closer_of_step hl h.step hactor h.working
  cases hold.symm.trans hp
  -- the pass is the same, so the batch itself has come closer to its end
  have hlt : b'.weight < b.weight := by
    rcases hcloser with ⟨hne, -⟩ | hlt | ⟨-, hlt⟩
    · exact absurd rfl hne
    · exact absurd hlt (Nat.lt_irrefl _)
    · exact hlt
  refine Bool.not_eq_true _ ▸ fun hdone => ?_
  rw [Batch.weight_of_isDone hdone] at hlt
  exact Nat.not_lt_zero _ hlt

/-- A batch can do nothing while its process waits. -/
theorem State.Waits.stalled (h : s.Waits p) (hI : Intact s)
    (hp : s.IsWorking p errand i pass b) : b.Stalled ∧ b.isDone = false := by
  refine ⟨⟨fun k hk => ?_, fun hpending => Nat.le_of_not_lt fun hfree => ?_⟩, ?_⟩
  · obtain ⟨s', hstep⟩ := step_of_ready hp hk
    cases hstep.symm.trans (h _ rfl)
  · obtain ⟨s', hstep⟩ := step_of_free hI hp hpending hfree
    cases hstep.symm.trans (h _ rfl)
  · refine Bool.not_eq_true _ ▸ fun hdone => ?_
    obtain ⟨s', hstep⟩ := exists_step_of_isDone hI hp hdone
    cases hstep.symm.trans (h _ rfl)

theorem Underway.own (h : Underway inTurn p errand i pass s₀ labels s b m)
    (hstep : Carries inTurn p errand i pass s b l s' b') (hactor : l.actor? = some p) :
    ∃ m', Underway inTurn p errand i pass s₀ (labels ++ [l]) s' b' m' := by
  have hdone := hstep.not_isDone h.intact.locked h.working hactor
  obtain ⟨m', b'', hp', hnow, hnodes, hown⟩ :=
    own_of_step h.working hdone h.ordered hstep.step hactor
  cases hp'.symm.trans hstep.working
  -- what a step adds to the log is the call that begins by it, if one does
  obtain ⟨place, hadvances, hstart⟩ := hown.advances
  obtain ⟨hpermits, htimeout, hdispatches⟩ := hadvances.limits
  have hstarts : callStarts p s₀ (labels ++ [l]) =
      callStarts p s₀ labels ++ place.toList.map (·, s.now) := by
    rw [callStarts, gather_concat _ h.run, hstart]
    cases place <;> rfl
  have howned := h.owned.congr h.nodes
  refine ⟨m', ⟨?_, h.intact.step hstep.step, hp', h.nodes.trans hnodes, hpermits.trans h.permits,
    htimeout.trans h.timeLimit, hdispatches.trans h.dispatches, hadvances.inFlight_le h.inFlight,
    h.ordered.advances hadvances, (hadvances.owned howned).congr h.nodes.symm, ?_, ?_, ?_, ?_, ?_,
    ?_, ?_⟩⟩
  · rw [run_append, h.run]
    exact hstep.step
  · rw [hnow]
    exact hadvances.onTime h.onTime
  · rw [hnow, hstarts]
    exact hadvances.logged h.ordered h.onTime h.logged
  · rw [issues, gather_concat _ h.run, ← issues, h.inOrder]
    rcases hown.issue with ⟨rfl, hissue⟩ | ⟨rfl, hissue⟩
    · rw [hissue]
      simp
    · rw [hissue, List.range_succ]
      rfl
  · intro hturn
    have hlog := h.turns hturn
    rw [hstarts]
    cases hplace : place with
    | none => simpa using hlog
    | some k =>
      rw [hplace] at hadvances hstart
      have hk := h.logged.inTurn h.ordered hlog (Batch.Advances.ready hadvances)
        (hstep.turn hturn k (startCall_of_start? hstart))
      simp [hlog, hk, List.range_succ]
  · rcases h.uncancelled with hb | hcancelled
    · exact (hown.uncancelled hb).imp_right fun hc => ⟨hc.1, cancelledAt_step hstep.step hc.2⟩
    · exact .inr ⟨hcancelled.1, cancelledAt_step hstep.step hcancelled.2⟩
  · rw [hnow]
    exact h.timely
  · have hshort := h.short
    have hweight := hown.weight
    rw [efforts, List.countP_append, List.countP_singleton, hactor, if_pos (beq_self_eq_true _)]
    rw [efforts] at hshort
    omega

/-- **Steps of others leave the batch as it is**, and time goes by without a delay. -/
theorem Underway.other (h : Underway inTurn p errand i pass s₀ labels s b m)
    (hstep : Carries inTurn p errand i pass s b l s' b') (hother : l.actor? ≠ some p) :
    Underway inTurn p errand i pass s₀ (labels ++ [l]) s' b' m := by
  have hp' : s'.IsWorking p errand i pass b := by
    rcases proc_step h.intact.locked hstep.step hother h.working with hsame | ⟨j, ⟨⟩, -⟩
    exact hsame
  cases hp'.symm.trans hstep.working
  have hstarts : callStarts p s₀ (labels ++ [l]) = callStarts p s₀ labels := by
    rw [callStarts, gather_concat _ h.run, start?_of_other hother, ← callStarts]
    simp
  have hissues : issues p s₀ (labels ++ [l]) = issues p s₀ labels := by
    rw [issues, gather_concat _ h.run, issue?_of_other hother, ← issues]
    simp
  have htime : b.OnTime s₀.now s'.now ∧ b.Logged s₀.now s'.now (callStarts p s₀ labels) ∧
      s'.now ≤ s₀.now + (pass.plan.length + s₀.permits - 1) / s₀.permits * s₀.timeLimit := by
    rcases now_step hstep.step with hnow | ⟨t, rfl, hle, rfl⟩
    · rw [hnow]
      exact ⟨h.onTime, h.logged, h.timely⟩
    · -- the process waits, so all permits are taken where a call waits for one
      obtain ⟨hwaits, hdue⟩ := hstep.patient _ rfl
      obtain ⟨hstalled, hdone⟩ := hwaits.stalled h.intact h.working
      have hlater := h.onTime.elapse h.ordered h.permits_pos hstalled hdue
      have hnow := hlater.now_le h.permits_pos hdone
      rw [h.length, h.permits, h.timeLimit] at hnow
      exact ⟨hlater, h.logged.elapse hle hstalled.begun, hnow⟩
  refine ⟨?_, h.intact.step hstep.step, hp', h.nodes.trans hstep.nodes, h.permits, h.timeLimit,
    h.dispatches, h.inFlight, h.ordered, h.owned, htime.1, hstarts ▸ htime.2.1,
    hissues.trans h.inOrder, hstarts ▸ h.turns,
    h.uncancelled.imp_right fun hc => ⟨hc.1, cancelledAt_step hstep.step hc.2⟩, htime.2.2, ?_⟩
  · rw [run_append, h.run]
    exact hstep.step
  · have hshort := h.short
    have hnone : (l.actor? == some p) = false := beq_false_of_ne hother
    rw [efforts, List.countP_append, List.countP_singleton, hnone, if_neg Bool.false_ne_true]
    exact hshort

/-- **How far a batch comes, whatever happens.** -/
theorem Carrying.underway (hI : Intact s₀)
    (hp : s₀.IsWorking p errand i pass (s₀.batchOf pass.plan))
    (h : Carrying inTurn p errand i pass s₀ labels s b) :
    ∃ m, Underway inTurn p errand i pass s₀ labels s b m := by
  induction h with
  | begun => exact ⟨0, underway_begun hI hp⟩
  | @carried labels s s' b b' l _ hstep ih =>
    obtain ⟨m, ih⟩ := ih
    by_cases hactor : l.actor? = some p
    · exact ih.own hstep hactor
    · exact ⟨m, ih.other hstep hactor⟩

/-! ### The end -/

/-- An unfinished batch goes on with any step of its process. -/
theorem Underway.exists_carries (h : Underway inTurn p errand i pass s₀ labels s b m)
    (hdone : b.isDone = false) (hstep : step s l = some s') (hactor : l.actor? = some p)
    (hturn : ∀ k, l = .startCall p k → ∀ j < k, ¬ b.Ready j) :
    ∃ b', Carries inTurn p errand i pass s b l s' b' ∧ b'.weight < b.weight := by
  obtain ⟨m', b', hp', -, hnodes, hown⟩ := own_of_step h.working hdone h.ordered hstep hactor
  refine ⟨b', ⟨hstep, hp', hnodes, fun t hl => ?_, fun _ => hturn⟩, hown.weight⟩
  rw [hl] at hactor
  cases hactor

theorem waits_of_stalled (hp : s.IsWorking p errand i pass b) (hdone : b.isDone = false)
    (hstalled : b.Stalled) {due : Nat} (hdue : b.DueFrom due) (hnow : s.now < due) : s.Waits p := by
  refine fun l hactor => Option.eq_none_iff_forall_ne_some.2 fun s' hstep => ?_
  cases workStep_of_step hp hstep hactor with
  | issued _ hhand =>
    obtain ⟨hpending, hfree, -⟩ := Batch.handOut_eq_some hhand
    exact absurd hfree (Nat.not_lt.2 (hstalled.full hpending))
  | started hstart =>
    obtain ⟨x, -, hx, -⟩ := Batch.start_foreseen hstart
    exact hstalled.begun _ ⟨x, hx⟩
  | settled hsettle =>
    obtain ⟨x, due', givenUp, -, hx, hle, -⟩ := Batch.settle_foreseen hsettle
    have := hdue _ x due' givenUp hx
    omega
  | concluded _ hover _ => exact absurd hover (by simp [hdone])

/-- **An unfinished batch can be brought closer to its end.** -/
theorem Underway.goesOn (h : Underway inTurn p errand i pass s₀ labels s b m)
    (hc : Carrying inTurn p errand i pass s₀ labels s b) (hdone : b.isDone = false) :
    ∃ more s' b', Carrying inTurn p errand i pass s₀ (labels ++ more) s' b' ∧
      b'.weight < b.weight := by
  cases Batch.next h.permits_pos hdone with
  | @start k hk hfirst =>
    obtain ⟨s', hstep⟩ := step_of_ready h.working hk
    obtain ⟨b', hcarries, hlt⟩ := h.exists_carries hdone hstep rfl
      (by rintro k' ⟨⟩; exact hfirst)
    exact ⟨_, s', b', hc.carried hcarries, hlt⟩
  | handOut hpending hfree =>
    obtain ⟨s', hstep⟩ := step_of_free h.intact h.working hpending hfree
    obtain ⟨b', hcarries, hlt⟩ := h.exists_carries hdone hstep rfl (by rintro k' ⟨⟩)
    exact ⟨_, s', b', hc.carried hcarries, hlt⟩
  | @settle k x due givenUp hstalled hk hdue =>
    by_cases hnow : due ≤ s.now
    · obtain ⟨s', hstep⟩ := step_of_due h.working hk hnow
      obtain ⟨b', hcarries, hlt⟩ := h.exists_carries hdone hstep rfl (by rintro k' ⟨⟩)
      exact ⟨_, s', b', hc.carried hcarries, hlt⟩
    · -- the time comes for the call
      have hlater := Nat.lt_of_not_le hnow
      have helapse : Carries inTurn p errand i pass s b (.elapse due) { s with now := due } b := by
        refine ⟨if_pos (Nat.le_of_lt hlater), h.working, .refl _, ?_, by rintro - k ⟨⟩⟩
        rintro t ⟨⟩
        exact ⟨waits_of_stalled h.working hdone hstalled hdue hlater, hdue⟩
      have h' := h.other helapse (by simp [Label.actor?])
      obtain ⟨s', hstep⟩ := step_of_due h'.working hk (Nat.le_refl due)
      obtain ⟨b', hcarries, hlt⟩ := h'.exists_carries hdone hstep rfl (by rintro k' ⟨⟩)
      refine ⟨[.elapse due, .settleCall p k], s', b', ?_, hlt⟩
      have hboth := (hc.carried helapse).carried hcarries
      rwa [List.append_assoc] at hboth

/-- **Every batch can be brought to its end.** -/
theorem Carrying.completes (hI : Intact s₀)
    (hp : s₀.IsWorking p errand i pass (s₀.batchOf pass.plan))
    (hc : Carrying inTurn p errand i pass s₀ labels s b) :
    ∃ more s' b', Carrying inTurn p errand i pass s₀ (labels ++ more) s' b' ∧ b'.isDone := by
  -- by induction on how many moves the calls are from their end
  induction hn : b.weight using Nat.strong_induction_on generalizing labels s b with
  | _ n ih =>
    cases hdone : b.isDone with
    | true => exact ⟨[], s, b, by rwa [List.append_nil], hdone⟩
    | false =>
      obtain ⟨m, h⟩ := hc.underway hI hp
      obtain ⟨first, s', b', hc', hlt⟩ := h.goesOn hc hdone
      obtain ⟨rest, s'', b'', hc'', hdone''⟩ := ih b'.weight (hn ▸ hlt) hc' rfl
      exact ⟨first ++ rest, s'', b'', by rwa [← List.append_assoc], hdone''⟩

/-! ### What is promised -/

/-- What is promised of a batch in a state of a run in which it is carried out, when its first `m`
calls were handed out. -/
structure Conducted (inTurn : Prop) (p : ProcId) (errand : Errand) (i : SlotId) (pass : Pass)
    (s₀ : State) (labels : List Label) (s : State) (b : Batch) (m : Nat) : Prop where
  /-- No more calls are in flight than there are permits. -/
  inFlight : b.inFlight ≤ s₀.permits
  /-- Calls were handed out in the order of the plan, one after the other. -/
  inOrder : issues p s₀ labels = List.range m
  /-- The others all wait, or are all cancelled. -/
  ordered : b.Ordered m
  /-- Calls begin once each. -/
  once : ((callStarts p s₀ labels).map Prod.fst).Nodup
  begun : ∀ k, k ∈ (callStarts p s₀ labels).map Prod.fst ↔ (b.calls[k]?).any Call.hasStarted
  /-- They begin in the order of the plan, as far as the clock tells. -/
  sorted : ∀ x ∈ callStarts p s₀ labels, ∀ y ∈ callStarts p s₀ labels, x.1 < y.1 → x.2 ≤ y.2
  /-- They do so altogether if calls begin in turn. -/
  turns : inTurn →
    (callStarts p s₀ labels).map Prod.fst = List.range (callStarts p s₀ labels).length
  /-- Call `k` begins by `k / permits` time limits after the batch. -/
  early : ∀ x ∈ callStarts p s₀ labels, x.2 ≤ s₀.now + x.1 / s₀.permits * s₀.timeLimit
  waiting : ∀ k c, b.calls[k]? = some c → c.hasBegun = false →
    s.now ≤ s₀.now + k / s₀.permits * s₀.timeLimit
  /-- The batch takes no longer than it would if every call ran into the time limit. -/
  timely : s.now ≤
    s₀.now + (pass.plan.length + s₀.permits - 1) / s₀.permits * s₀.timeLimit
  /-- No call takes more than three steps of the process. -/
  short : efforts p labels + b.weight ≤ 3 * pass.plan.length
  /-- The batch can be brought to its end. -/
  completes : ∃ more s' b',
    Carrying inTurn p errand i pass s₀ (labels ++ more) s' b' ∧ b'.isDone
  /-- Then there is an outcome for each dispatch, in the order of the plan. -/
  outcomes : b.isDone → b.outcomes.map Outcome.bare =
    ((pass.plan.take m).map fun x => ⟨x, s₀.engine.verdict s₀.timeLimit x⟩) ++
      (pass.plan.drop m).map fun x => ⟨x, .error .cancelled⟩
  /-- Just the calls that were handed out have begun. -/
  reached : b.isDone → ((callStarts p s₀ labels).map Prod.fst).Perm (List.range m)
  /-- Calls are cancelled only in a pass, when its deployment is deleted. -/
  cancelled : b.isDone → m < pass.plan.length →
    errand.IsPass ∧ s.cancelledAt i = some true
  /-- The process goes on with the outcomes. -/
  returned : b.isDone → step s (.advance p) =
    some (s.follow p errand i (pass.conclude s.fleet b.outcomes))

theorem Underway.conducted (hI : Intact s₀)
    (hp : s₀.IsWorking p errand i pass (s₀.batchOf pass.plan))
    (hc : Carrying inTurn p errand i pass s₀ labels s b)
    (h : Underway inTurn p errand i pass s₀ labels s b m) :
    Conducted inTurn p errand i pass s₀ labels s b m where
  inFlight := h.permits ▸ h.inFlight
  inOrder := h.inOrder
  ordered := h.ordered
  once := h.logged.nodup
  begun := h.logged.mem_iff
  sorted := h.logged.sorted
  turns := h.turns
  early := by
    rw [← h.permits, ← h.timeLimit]
    exact h.logged.early
  waiting := by
    rw [← h.permits, ← h.timeLimit]
    exact fun k c hk hwaits => h.onTime.waiting hk hwaits
  timely := h.timely
  short := h.short
  completes := hc.completes hI hp
  outcomes := fun hdone => by
    rw [h.ordered.outcomes h.owned hdone, h.dispatches, h.timeLimit]
  reached := fun hdone => by
    refine (List.perm_ext_iff_of_nodup h.logged.nodup List.nodup_range).2 fun k => ?_
    rw [h.logged.mem_iff, List.mem_range, h.ordered.hasStarted_iff hdone]
  cancelled := fun hdone hlt => by
    refine h.uncancelled.resolve_left fun hb => ?_
    have hle := h.ordered.length_le hdone hb.calls
    rw [h.length] at hle
    exact absurd hlt (Nat.not_lt.2 hle)
  returned := fun hdone => by
    have hproc : s.procs[p]? = some ⟨errand, .working i pass b⟩ := h.working
    obtain ⟨sl, hslot⟩ := exists_slot h.intact.locked hproc rfl
    have hturn := Turn.concluded hproc hslot (Batch.handOut_of_isDone hdone _) hdone
    exact step_of_turn hturn

end

/-- **Every batch is carried out in order and in time, and comes to its outcomes**, whenever its
deployment is deleted and whatever nodes hang, if permits can be counted. -/
theorem batch_conducted {s₀ s s₁ : State} {before : List Label} {p : ProcId} {errand : Errand}
    {i : SlotId} {pass : Pass} (h₀ : s₀.Fresh)
    (hcap : s₀.settings.maxConcurrentDispatches.toNat ≤ Batch.maxPermits)
    (hrun : run s₀ before = some s) (hturn : Turn s p errand i s₁ (.dispatching pass)) :
    ∃ s', step s (.advance p) = some s' ∧ s'.now = s.now ∧
      s'.IsWorking p errand i pass (s'.batchOf pass.plan) ∧
      ∀ inTurn labels s'' b, Carrying inTurn p errand i pass s' labels s'' b →
        ∃ m, Conducted inTurn p errand i pass s' labels s'' b m := by
  have hcountable : Countable s :=
    run_induction (P := fun _ s => Countable s) hcap (fun _ _ _ _ _ hs hstep => hs.step hstep) hrun
  obtain ⟨s', hstep, hnow, hp⟩ := working_of_turn hcountable hturn
  have hI : Intact s' := ((h₀.lively.run hrun).step hstep).intact
  refine ⟨s', hstep, hnow, hp, fun inTurn labels s'' b hc => ?_⟩
  obtain ⟨m, h⟩ := hc.underway hI hp
  exact ⟨m, h.conducted hI hp hc⟩

/-- A control plane over one node that makes one call at a time. -/
def oneAtATime : State := { oneNode with settings := { maxConcurrentDispatches := 1 } }

/-- A deployment gets two instances in two passes. Then its node hangs, and it is deleted. -/
def twoInstances : List Label :=
  [.submit { deploymentId := some "a", container := { image := "web" }, scale := 2 } "x"] ++
  List.replicate 4 (.advance 0) ++ [.startCall 0 0, .advance 0, .trigger "a"] ++
  List.replicate 4 (.advance 1) ++ [.startCall 1 0, .advance 1,
    .change (.setLatency "n" 1000000), .delete "a", .advance 2, .advance 2]

theorem batch_conducted_twoInstances : oneAtATime.Fresh ∧
    oneAtATime.settings.maxConcurrentDispatches.toNat ≤ Batch.maxPermits ∧
    ∃ s s₁ pass, run oneAtATime twoInstances = some s ∧
      Turn s 2 (.delete "a") 0 s₁ (.dispatching pass) ∧ pass.plan.length = 2 ∧
      ∃ s', step s (.advance 2) = some s' ∧
        s'.IsWorking 2 (.delete "a") 0 pass (s'.batchOf pass.plan) ∧
        ∃ labels s'' b m, Carrying True 2 (.delete "a") 0 pass s' labels s'' b ∧ b.isDone ∧
          Conducted True 2 (.delete "a") 0 pass s' labels s'' b m := by
  have hfresh : oneAtATime.Fresh := ⟨rfl, rfl, rfl⟩
  have hcap : oneAtATime.settings.maxConcurrentDispatches.toNat ≤ Batch.maxPermits := by
    decide +kernel
  have hend : (run oneAtATime twoInstances).any fun s => s.isAdmitted 2 &&
      (s.procs[2]?).any (fun proc =>
        proc.errand == .delete "a" && proc.stage.held? == some 0) &&
      (s.slots[0]?).any fun sl => sl.record.instances.length == 2 := by decide +kernel
  obtain ⟨s, hrun, hs⟩ := (Option.any_eq_true ..).1 hend
  simp only [Bool.and_eq_true] at hs
  obtain ⟨⟨hadmitted, hworks⟩, hholds⟩ := hs
  obtain ⟨sl, hslot, hinstances⟩ := (Option.any_eq_true ..).1 hholds
  have hproc : s.procs[2]? = some ⟨.delete "a", .admitted 0⟩ := by
    obtain ⟨⟨errand, stage⟩, hproc, hat⟩ := (Option.any_eq_true ..).1 hworks
    rw [Bool.and_eq_true, beq_iff_eq, beq_iff_eq] at hat
    obtain ⟨herrand, hheld⟩ : errand = .delete "a" ∧ stage.held? = some 0 := hat
    rw [State.isAdmitted, hproc] at hadmitted
    cases stage with
    | admitted i =>
      cases hheld
      rw [hproc, herrand]
    | _ => cases hadmitted
  have hplan : (Pass.startDrain s.wall sl.record).plan.length = 2 := by
    rw [Pass.startDrain, List.length_map, beq_iff_eq.1 hinstances]
  have hlaunch : (Pass.startDrain s.wall sl.record).launch s.fleet =
      .dispatching (Pass.startDrain s.wall sl.record) :=
    if_neg (by rw [List.isEmpty_iff_length_eq_zero, hplan]; decide)
  have hturn := Turn.drained hproc hslot
  rw [hlaunch] at hturn
  obtain ⟨s', hstep, -, hp, hall⟩ := batch_conducted hfresh hcap hrun hturn
  obtain ⟨_, hbegun⟩ := hall True [] s' _ .begun
  obtain ⟨labels, s'', b, hcarrying, hdone⟩ := hbegun.completes
  obtain ⟨m, hconducted⟩ := hall True _ s'' b hcarrying
  exact ⟨hfresh, hcap, s, s, _, hrun, hturn, hplan, s', hstep, hp, _, s'', b, m, hcarrying, hdone,
    hconducted⟩

/-- With more permits than can be counted, a plan comes to no outcome. -/
theorem batch_abandoned : manyPermits.Fresh ∧
    ∃ s s₁ errand pass s', run manyPermits firstPasses.dropLast = some s ∧
      Turn s 1 errand 0 s₁ (.dispatching pass) ∧ pass.plan.length = 1 ∧
      step s (.advance 1) = some s' ∧ s'.answer? 1 = some .aborted := by
  have hend : (run manyPermits firstPasses.dropLast).any fun s =>
      (s.progress? 0 (.advance 1)).any (fun progress =>
        progress.plan?.any fun plan => plan.length == 1) &&
      (step s (.advance 1)).any fun s' => s'.answer? 1 == some .aborted := by decide +kernel
  obtain ⟨s, hrun, hs⟩ := (Option.any_eq_true ..).1 hend
  rw [Bool.and_eq_true] at hs
  obtain ⟨progress, hprogress, hplan⟩ := (Option.any_eq_true ..).1 hs.1
  obtain ⟨s', hstep, hs'⟩ := (Option.any_eq_true ..).1 hs.2
  obtain ⟨p, errand, s₁, ⟨⟩, -, hturn⟩ := progress?_eq_some_iff.1 hprogress
  cases progress with
  | dispatching pass =>
    exact ⟨⟨rfl, rfl, rfl⟩, s, s₁, errand, pass, s', hrun, hturn, beq_iff_eq.1 hplan, hstep,
      beq_iff_eq.1 hs'⟩
  | finished work report => cases hplan

end Control

end FleetControl
