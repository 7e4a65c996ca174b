import FleetControl.Proofs.Control.Accounts
import FleetControl.Proofs.Control.Overshoot
import FleetControl.Proofs.Control.Steps
import FleetControl.Proofs.Pass.Absorption

/-!
# Requests and passes happen one after the other

Requests reach a record while a pass on it is under way. The record comes out as if every pass had
run in one piece where it began, and every request had come where it was accepted:

* `Control.history` lists the requests that a run accepts for a slot and the passes that begin on
  it, in the order of the run;
* `Control.Replay` is what such a list leaves when each is over before the next happens;
* `Control.interleaving_serializes` : when no pass is under way on a slot, its record is one that
  its history leaves, with the passes coming to what their processes answered.

While a pass is under way, the record has the requests since its beginning and nothing of the pass
(`Control.Flight`).
-/

namespace FleetControl

namespace Control

/-! ### Histories -/

/-- What happens to the record of a slot. -/
inductive Event where
  /-- A request for it is accepted. -/
  | request (request : Request)
  /-- A process begins a pass on it. -/
  | pass (p : ProcId)
deriving DecidableEq

/-- Whether the process has to begin a pass on a slot. -/
def Proc.opens (proc : Proc) (i : SlotId) : Bool :=
  match proc with
  | ⟨.delete _, _⟩ => false
  | ⟨_, .admitted j⟩ => j == i
  | _ => false

/-- What a step does to the record of a slot, if it is not a part of a pass. -/
def State.event? (s : State) (i : SlotId) : Label → Option Event
  | .advance p => if (s.procs[p]?).any (·.opens i) then some (.pass p) else none
  | l => (s.acceptance l).bind fun (j, request) => if j = i then some (.request request) else none

/-- What happens to the record of a slot in a run. -/
def history (i : SlotId) (s : State) : List Label → List Event
  | [] => []
  | l :: labels => (s.event? i l).toList ++ (step s l).elim [] fun s' => history i s' labels

theorem history_eq_gather (i : SlotId) (s : State) (labels : List Label) :
    history i s labels = gather (·.event? i) s labels := by
  induction labels generalizing s with
  | nil => rfl
  | cons l labels ih => simp only [history, gather, ih]

theorem history_append {s₀ s : State} {labels : List Label} (h : run s₀ labels = some s)
    (i : SlotId) (l : Label) :
    history i s₀ (labels ++ [l]) = history i s₀ labels ++ (s.event? i l).toList := by
  simp only [history_eq_gather, gather_concat _ h]

/-! ### Replay -/

/-- What the process says of its pass. -/
inductive Answer.Gives : Answer → Except Region.Error Report → Prop
  | accepted (id : String) (report : Report) : Gives (.accepted id) (.ok report)
  | reported (report : Report) : Gives (.reported report) (.ok report)
  | failed (e : Region.Error) : Gives (.failed (.region e)) (.error e)

theorem gives_answerOf {errand : Errand} (h : errand.IsPass) (work : Deployment) (report : Report) :
    (State.answerOf errand work report).Gives (.ok report) := by
  cases errand with
  | submit id => exact .accepted id report
  | delete id => exact absurd rfl (h id)
  | _ => exact .reported report

/-- The record that the events leave when each is over before the next happens. The passes come to
what is answered. -/
inductive Replay (answers : ProcId → Option Answer) : List Event → Deployment → Prop
  /-- The first request founds the deployment. -/
  | founded (id : String) (request : Request) (capacity now : Nat) :
      Replay answers [.request request] (.new id request capacity now)
  | revised {events : List Event} {d : Deployment} (request : Request) :
      Replay answers events d → Replay answers (events ++ [.request request]) (d.update request)
  | passed {events : List Event} {d work : Deployment} {p : ProcId} {answer : Answer}
      {result : Except Region.Error Report} :
      Replay answers events d → Pass.Ending d.begun work result → answers p = some answer →
      answer.Gives result → Replay answers (events ++ [.pass p]) work
  /-- A pass that cannot make its calls goes no further than its beginning. -/
  | aborted {events : List Event} {d : Deployment} {p : ProcId} :
      Replay answers events d → answers p = some .aborted →
      Replay answers (events ++ [.pass p]) d.begun

/-- The pass of the process is under way since it began as `p₀`, and only requests have come since.
-/
inductive Flight (answers : ProcId → Option Answer) (p : ProcId) (p₀ : Pass) :
    List Event → Deployment → Prop
  | intro {before : List Event} {d : Deployment} {f : Fleet} {selector : Placement.Selector}
      (requests : List Request) :
      Replay answers before d → Pass.start f d.begun = .planned p₀ selector →
      Flight answers p p₀ (before ++ .pass p :: requests.map .request) (d.begun.updateAll requests)

section

variable {answers answers' : ProcId → Option Answer} {events : List Event} {d work : Deployment}
  {p : ProcId} {p₀ q : Pass}

theorem Replay.mono (h : Replay answers events d)
    (hanswers : ∀ p answer, answers p = some answer → answers' p = some answer) :
    Replay answers' events d := by
  induction h with
  | founded id request capacity now => exact .founded id request capacity now
  | revised request _ ih => exact ih.revised request
  | passed _ hend hanswer hgives ih => exact ih.passed hend (hanswers _ _ hanswer) hgives
  | aborted _ hanswer ih => exact ih.aborted (hanswers _ _ hanswer)

theorem Replay.revisedAll (h : Replay answers events d) (requests : List Request) :
    Replay answers (events ++ requests.map .request) (d.updateAll requests) := by
  induction requests using List.reverseRecOn with
  | nil => rwa [List.map_nil, List.append_nil]
  | append_singleton requests request ih =>
    rw [List.map_append, ← List.append_assoc, Deployment.updateAll_concat]
    exact ih.revised request

theorem Replay.opened (h : Replay answers events d) {f : Fleet} {selector : Placement.Selector}
    (hstart : Pass.start f d.begun = .planned p₀ selector) :
    Flight answers p p₀ (events ++ [.pass p]) d.begun :=
  .intro [] h hstart

theorem Flight.mono (h : Flight answers p p₀ events d)
    (hanswers : ∀ p answer, answers p = some answer → answers' p = some answer) :
    Flight answers' p p₀ events d := by
  cases h with
  | intro requests hbefore hstart => exact .intro requests (hbefore.mono hanswers) hstart

theorem Flight.revised (h : Flight answers p p₀ events d) (request : Request) :
    Flight answers p p₀ (events ++ [.request request]) (d.update request) := by
  cases h with
  | intro requests hbefore hstart =>
    have hlast := Flight.intro (p := p) (requests ++ [request]) hbefore hstart
    rw [Deployment.updateAll_concat, List.map_append] at hlast
    rwa [List.append_assoc]

/-- The record that takes the pass back is as if the requests had come after the pass. -/
theorem Flight.absorbed (h : Flight answers p p₀ events d) {outs : List Outcome} {f : Fleet}
    {report : Report} (hcourse : Pass.Course p₀ q outs) (hplan : q.plan = [])
    (hend : q.proceed f = .finished work report) {answer : Answer}
    (hanswer : answers p = some answer)
    (hgives : answer.Gives (.ok report)) : Replay answers events (d.absorb work) := by
  cases h with
  | intro requests hbefore hstart =>
    have hending := Pass.Ending.finished hstart hcourse hplan hend
    rw [hending.absorb_requests requests, List.append_cons]
    exact (hbefore.passed hending hanswer hgives).revisedAll requests

theorem Flight.aborted (h : Flight answers p p₀ events d) (hanswer : answers p = some .aborted) :
    Replay answers events d := by
  cases h with
  | intro requests hbefore hstart =>
    rw [List.append_cons]
    exact (hbefore.aborted hanswer).revisedAll requests

end

/-! ### What a run keeps -/

/-- The process has a pass under way on the slot. -/
def State.Carries (s : State) (p : ProcId) (i : SlotId) (pass : Pass) : Prop :=
  ∃ errand batch, errand.IsPass ∧ s.IsWorking p errand i pass batch

/-- The record of the slot is what the events leave: all of them, if no pass is under way, and those
since its beginning only as far as they are requests, if one is. -/
structure Serial (s : State) (i : SlotId) (events : List Event) (d : Deployment) : Prop where
  rest : (∀ p pass, ¬ s.Carries p i pass) → Replay s.answer? events d
  flight : ∀ {p pass}, s.Carries p i pass →
    ∃ p₀ outs, Flight s.answer? p p₀ events d ∧ Pass.Course p₀ pass outs

section

variable {s s' s₁ : State} {l : Label} {p q : ProcId} {errand : Errand} {i j : SlotId} {pass : Pass}
  {batch : Batch} {events : List Event} {d : Deployment} {progress : Progress}

theorem Serial.keep (h : Serial s i events d)
    (hanswer : ∀ q answer, s.answer? q = some answer → s'.answer? q = some answer)
    (hcarries : ∀ q pass, s'.Carries q i pass ↔ s.Carries q i pass) : Serial s' i events d where
  rest := fun hidle => (h.rest fun q pass => mt (hcarries q pass).2 (hidle q pass)).mono hanswer
  flight := fun hq => by
    obtain ⟨p₀, outs, hflight, hcourse⟩ := h.flight ((hcarries ..).1 hq)
    exact ⟨p₀, outs, hflight.mono hanswer, hcourse⟩

theorem Serial.revised (h : Serial s i events d) (request : Request) :
    Serial s i (events ++ [.request request]) (d.update request) where
  rest := fun hidle => (h.rest hidle).revised request
  flight := fun hq => by
    obtain ⟨p₀, outs, hflight, hcourse⟩ := h.flight hq
    exact ⟨p₀, outs, hflight.revised request, hcourse⟩

theorem carries_congr (h : ∀ errand batch, s'.IsWorking q errand i pass batch ↔
    s.IsWorking q errand i pass batch) : s'.Carries q i pass ↔ s.Carries q i pass :=
  exists_congr fun _ => exists_congr fun _ => and_congr_right fun _ => h ..

theorem carries_spawn (errand : Errand) {stage : Stage} (h : stage.isWorking = false) (q : ProcId)
    (pass : Pass) : (s.spawn errand stage).1.Carries q i pass ↔ s.Carries q i pass :=
  carries_congr fun _ _ => State.isWorking_spawn h

theorem carries_sweep (q : ProcId) (pass : Pass) :
    s.sweep.1.Carries q i pass ↔ s.Carries q i pass :=
  carries_congr fun _ _ => State.isWorking_sweep

theorem carries_setStage {old new : Stage} (hproc : s.procs[p]? = some ⟨errand, old⟩)
    (hold : old.isWorking = false) (hnew : new.isWorking = false) (q : ProcId) (pass : Pass) :
    (s.setStage p new).Carries q i pass ↔ s.Carries q i pass :=
  carries_congr fun _ _ => State.isWorking_setStage hproc hold hnew

/-- A call moves, and the pass stays the same. -/
theorem carries_work (hp : s.IsWorking p errand i pass batch) (batch' : Batch) (q : ProcId)
    (j : SlotId) (pass' : Pass) :
    (s.setStage p (.working i pass batch')).Carries q j pass' ↔ s.Carries q j pass' := by
  unfold State.Carries State.IsWorking
  by_cases hpq : p = q
  · subst hpq
    rw [State.procs_setStage_self hp, hp]
    simp
  · rw [State.procs_setStage_of_ne hpq]

/-- No pass is under way on the slot of which a process has just got the lock. -/
theorem not_carries_of_admitted (hl : Locked s)
    (hproc : s.procs[p]? = some ⟨errand, .admitted i⟩) (q : ProcId) (pass : Pass) :
    ¬ s.Carries q i pass := by
  rintro ⟨errand', batch, -, hq⟩
  exact State.idle_of_admitted hl hproc q errand' pass batch hq

/-- A process that ends has answered, and no pass is under way on its slot. -/
theorem rest_endProc (hl : Locked s) {stage : Stage} (hproc : s.procs[p]? = some ⟨errand, stage⟩)
    (hheld : stage.held? = some i) (answer : Answer) :
    (s.endProc p i answer).answer? p = some answer ∧
      ∀ q pass, ¬ (s.endProc p i answer).Carries q i pass := by
  refine ⟨answer?_endProc hl hproc hheld answer, ?_⟩
  rintro q pass ⟨errand', batch, -, hq⟩
  obtain ⟨hq, hne⟩ := (State.isWorking_endProc hl hproc hheld answer).1 hq
  exact hne ((hq.eq_of_held hl hproc hheld).1 rfl)

theorem carries_endProc (hl : Locked s) {stage : Stage}
    (hproc : s.procs[p]? = some ⟨errand, stage⟩) (hheld : stage.held? = some j) (answer : Answer)
    (hnot : ¬ s.Carries p i pass) (q : ProcId) :
    (s.endProc p j answer).Carries q i pass ↔ s.Carries q i pass := by
  refine exists_congr fun errand' => exists_congr fun batch => and_congr_right fun hpass => ?_
  rw [State.isWorking_endProc hl hproc hheld answer, and_iff_left_iff_imp]
  rintro hq rfl
  exact hnot ⟨errand', batch, hpass, hq⟩

/-- The turn of a process changes the passes under way on its slot, unless the process is the end of
the deployment. -/
theorem carries_turned (hl : Locked s) (hturn : Turn s p errand j s₁ progress)
    (hfollow : Follow s₁ p errand j progress s') (hi : j ≠ i ∨ ¬ errand.IsPass) (q : ProcId)
    (pass : Pass) : s'.Carries q i pass ↔ s.Carries q i pass := by
  obtain ⟨stage, hproc, hheld⟩ := hturn.held
  have hl₁ := hl.turn hturn
  -- neither before nor after has the process a pass under way on the slot `i`
  have hnot : ∀ {s : State} {stage : Stage}, s.procs[p]? = some ⟨errand, stage⟩ →
      stage.held? = some j → ¬ s.Carries p i pass := by
    rintro s stage hproc hheld ⟨errand', batch, hpass, hq⟩
    cases hproc.symm.trans hq
    exact hi.elim (fun hi => hi (Option.some.inj hheld).symm) fun hi => hi hpass
  have hsame : s₁.Carries q i pass ↔ s.Carries q i pass := by
    refine carries_congr fun errand' batch => ?_
    rw [State.IsWorking, hturn.procs, State.IsWorking]
  refine Iff.trans ?_ hsame
  cases hfollow with
  | dispatched pass' _ =>
    by_cases hpq : p = q
    · subst hpq
      exact iff_of_false (hnot (State.procs_setStage_self hproc _) rfl) (hnot hproc hheld)
    · refine carries_congr fun errand' batch => ?_
      rw [State.IsWorking, State.procs_setStage_of_ne hpq, State.IsWorking]
  | aborted pass' _ => exact carries_endProc hl₁ hproc hheld _ (hnot hproc hheld) q
  | published work report _ =>
    exact carries_endProc (hl₁.mapRecord ..) hproc hheld _ (hnot hproc hheld) q
  | deleted id work report _ => exact carries_endProc hl₁ hproc hheld _ (hnot hproc hheld) q

/-! ### Steps -/

theorem event?_admitted (hproc : s.procs[p]? = some ⟨errand, .admitted j⟩) (h : errand.IsPass)
    (i : SlotId) : s.event? i (.advance p) = if j = i then some (.pass p) else none := by
  have hopens : (⟨errand, .admitted j⟩ : Proc).opens i = decide (j = i) := by
    cases errand with
    | delete id => exact absurd rfl (h id)
    | _ => rfl
  rw [State.event?, hproc, Option.any_some, hopens]
  simp

theorem event?_other {stage : Stage} (hproc : s.procs[p]? = some ⟨errand, stage⟩)
    (h : ¬ errand.IsPass ∨ ∀ j, stage ≠ .admitted j) (i : SlotId) :
    s.event? i (.advance p) = none := by
  have hopens : (⟨errand, stage⟩ : Proc).opens i = false := by
    rcases h with h | h
    · cases errand with
      | delete id => rfl
      | _ => exact absurd (by rintro id ⟨⟩) h
    · cases errand <;> cases stage <;> first | rfl | exact absurd rfl (h _)
  rw [State.event?, hproc, Option.any_some, hopens, if_neg Bool.false_ne_true]

theorem event?_called {k : Nat} {A B : Prop}
    (h : l = .startCall p k ∧ A ∨ l = .settleCall p k ∧ B) (i : SlotId) : s.event? i l = none := by
  rcases h with ⟨rfl, -⟩ | ⟨rfl, -⟩ <;> rfl

/-- The turn of a process begins no pass on another slot, and none if it is the end of the
deployment. -/
theorem event?_turned (hturn : Turn s p errand j s₁ progress) (hi : j ≠ i ∨ ¬ errand.IsPass) :
    s.event? i (.advance p) = none := by
  cases hturn with
  | opened hproc hpass _ _ =>
    exact (event?_admitted hproc hpass i).trans (if_neg (hi.resolve_right (not_not_intro hpass)))
  | @drained id _ _ hproc _ => exact event?_other hproc (.inl fun hpass => hpass id rfl) i
  | concluded hproc _ _ _ => exact event?_other hproc (.inr (by rintro _ ⟨⟩)) i

/-- Nothing happens to a slot that is not there. -/
theorem event?_eq_none (h : Intact s) (hstep : step s l = some s') (hi : s'.slots.length ≤ i) :
    s.event? i l = none := by
  have hne : ∀ {j}, j < s.slots.length → j ≠ i := fun hj =>
    Nat.ne_of_lt (Nat.lt_of_lt_of_le hj ((length_step hstep).trans hi))
  cases moves_of_step hstep with
  | refused e haccept => simp [State.event?, State.acceptance, haccept]
  | revised haccept hget =>
    simp [State.event?, acceptance_of_revised haccept hget, hne (h.bound hget)]
  | @founded request fresh haccept _ =>
    have hnew : (s.found (s.newRecord request fresh)).slots.length ≤ i := hi
    have hlast : s.slots.length ≠ i := by
      simp only [State.found, List.length_append, List.length_singleton] at hnew
      omega
    simp [State.event?, acceptance_of_founded haccept, hlast]
  | missed hproc _ => exact event?_other hproc (.inr (by rintro _ ⟨⟩)) i
  | looked hproc _ => exact event?_other hproc (.inr (by rintro _ ⟨⟩)) i
  | flagged hproc => exact event?_other hproc (.inr (by rintro _ ⟨⟩)) i
  | locked hproc _ _ => exact event?_other hproc (.inr (by rintro _ ⟨⟩)) i
  | waited hproc _ _ => exact event?_other hproc (.inr (by rintro _ ⟨⟩)) i
  | unplaced hproc hpass _ _ =>
    exact (event?_admitted hproc hpass i).trans (if_neg (hne (h.locked.placed_proc hproc rfl)))
  | turned hturn _ =>
    obtain ⟨stage, hproc, hheld⟩ := hturn.proc
    have hplaced := h.locked.placed_proc hproc (Stage.slot?_of_held hheld)
    exact event?_turned hturn (.inl (hne hplaced))
  | issued hproc _ _ => exact event?_other hproc (.inr (by rintro _ ⟨⟩)) i
  | called _ hcall => exact event?_called hcall i
  | _ => rfl

/-- A process that takes a turn with its pass has it under way, and where it comes to follows the
course of the pass. -/
theorem Serial.turned (hI : Intact s) (h : ∀ d, s.recordAt i = some d → Serial s i events d)
    (hturn : Turn s p errand i s₁ progress) (hpass : errand.IsPass) (hd : s₁.recordAt i = some d) :
    ∃ p₀ outs, Flight s.answer? p p₀ (events ++ (s.event? i (.advance p)).toList) d ∧
      (∀ pass, progress = .dispatching pass → Pass.Course p₀ pass outs) ∧
      ∀ work report, progress = .finished work report →
        ∃ q f, Pass.Course p₀ q outs ∧ q.plan = [] ∧ q.proceed f = .finished work report := by
  cases hturn with
  | @opened _ _ sl pass selector hproc _ hslot hstart =>
    have hrecord := State.recordAt_of_slot hslot
    have hidle := not_carries_of_admitted hI.locked hproc
    -- the record that the pass begins on is the published one
    have hbegun : (s.mapRecord i fun _ => sl.record.begun).recordAt i = some d := hd
    rw [State.recordAt_mapRecord, if_pos rfl, hrecord] at hbegun
    cases hbegun
    rw [event?_admitted hproc hpass, if_pos rfl]
    refine ⟨pass, [], ((h _ hrecord).rest hidle).opened hstart, ?_, ?_⟩
    · exact fun _ hlaunch => Pass.Course.launch_dispatching hlaunch
    · exact fun _ _ hlaunch => ⟨pass, _, .opened, Pass.Course.launch_finished hlaunch⟩
  | @drained id _ _ _ _ => exact absurd rfl (hpass id)
  | @concluded _ _ sl pass batch hproc hslot _ hdone =>
    obtain ⟨p₀, outs, hflight, hcourse⟩ := (h d hd).flight ⟨errand, batch, hpass, hproc⟩
    have houtcomes := (Batch.outcomes_dispatches hdone).trans (hI.plans hproc)
    rw [event?_other hproc (.inr (by rintro _ ⟨⟩)), Option.toList_none, List.append_nil]
    refine ⟨p₀, outs ++ batch.outcomes, hflight, ?_, ?_⟩
    · exact fun _ hconclude => hcourse.conclude_dispatching houtcomes hconclude
    · intro work report hconclude
      obtain ⟨q, hq⟩ := hcourse.conclude_finished houtcomes hconclude
      exact ⟨q, _, hq⟩

/-- Wherever the process comes to after its turn, the record is what the events leave. -/
theorem Serial.followed (hl : Locked s) {stage : Stage}
    (hproc : s.procs[p]? = some ⟨errand, stage⟩) (hheld : stage.held? = some i)
    (hpass : errand.IsPass) (hfollow : Follow s p errand i progress s')
    (hanswer : ∀ q answer, s.answer? q = some answer → s'.answer? q = some answer)
    (hturned : ∀ d, s.recordAt i = some d → ∃ p₀ outs, Flight s.answer? p p₀ events d ∧
      (∀ pass, progress = .dispatching pass → Pass.Course p₀ pass outs) ∧
      ∀ work report, progress = .finished work report →
        ∃ q f, Pass.Course p₀ q outs ∧ q.plan = [] ∧ q.proceed f = .finished work report)
    (hd : s'.recordAt i = some d) : Serial s' i events d := by
  cases hfollow with
  | dispatched pass _ =>
    obtain ⟨p₀, outs, hflight, hdispatching, -⟩ := hturned d hd
    refine ⟨
      fun hidle => absurd ⟨errand, _, hpass, State.procs_setStage_self hproc _⟩ (hidle p pass),
      ?_⟩
    rintro q pass' ⟨errand', batch, -, hq⟩
    rcases hq.of_setStage with ⟨rfl, hstage, -⟩ | ⟨hne, hq⟩
    · cases hstage
      exact ⟨p₀, outs, hflight.mono hanswer, hdispatching pass rfl⟩
    · exact absurd ((hq.eq_of_held hl hproc hheld).1 rfl) hne
  | aborted pass _ =>
    rw [State.recordAt_endProc] at hd
    obtain ⟨p₀, outs, hflight, -⟩ := hturned d hd
    obtain ⟨haborted, hidle⟩ := rest_endProc hl hproc hheld .aborted
    exact ⟨fun _ => (hflight.mono hanswer).aborted haborted, fun hq => absurd hq (hidle _ _)⟩
  | published work report _ =>
    rw [State.recordAt_endProc, State.recordAt_mapRecord, if_pos rfl] at hd
    obtain ⟨d₀, hd₀, rfl⟩ := Option.map_eq_some_iff.1 hd
    obtain ⟨p₀, outs, hflight, -, hfinished⟩ := hturned d₀ hd₀
    obtain ⟨q, f, hcourse, hplan, hproceed⟩ := hfinished work report rfl
    have hl₁ : Locked (s.mapRecord i (·.absorb work)) := hl.mapRecord ..
    obtain ⟨hanswered, hidle⟩ := rest_endProc hl₁ hproc hheld (State.answerOf errand work report)
    refine ⟨fun _ => ?_, fun hq => absurd hq (hidle _ _)⟩
    exact (hflight.mono hanswer).absorbed hcourse hplan hproceed hanswered
      (gives_answerOf hpass work report)
  | deleted id work report hdelete => exact absurd hdelete (hpass id)

/-- A pass that comes to an error where it begins is over at once. -/
theorem Serial.unplaced {sl : Slot} {work : Deployment} {e : Region.Error} (hl : Locked s)
    (h : Serial s i events sl.record) (hproc : s.procs[p]? = some ⟨errand, .admitted i⟩)
    (hslot : s.slots[i]? = some sl) (hstart : Pass.start s.fleet sl.record.begun = .failed work e)
    (hs' : s' = (s.mapRecord i fun _ => work).endProc p i (.failed (.region e)))
    (hanswer : ∀ q answer, s.answer? q = some answer → s'.answer? q = some answer)
    (hd : s'.recordAt i = some d) : Serial s' i (events ++ [.pass p]) d := by
  subst hs'
  have hreplay := h.rest (not_carries_of_admitted hl hproc)
  have hproc₁ : (s.mapRecord i fun _ => work).procs[p]? = some ⟨errand, .admitted i⟩ := hproc
  obtain ⟨hanswered, hrest⟩ := rest_endProc (hl.mapRecord ..) hproc₁ rfl (.failed (.region e))
  rw [State.recordAt_endProc, State.recordAt_mapRecord, if_pos rfl,
    State.recordAt_of_slot hslot] at hd
  cases hd
  exact ⟨fun _ => (hreplay.mono hanswer).passed (.failed hstart) hanswered (.failed e),
    fun hq => absurd hq (hrest _ _)⟩

/-- **A step leaves what the events leave.** -/
theorem Serial.step {events : SlotId → List Event} (hI : Intact s)
    (hnew : ∀ {i}, s.slots.length ≤ i → events i = [])
    (h : ∀ i d, s.recordAt i = some d → Serial s i (events i) d) (hstep : step s l = some s')
    (hd : s'.recordAt i = some d) : Serial s' i (events i ++ (s.event? i l).toList) d := by
  have hanswer : ∀ q answer, s.answer? q = some answer → s'.answer? q = some answer :=
    fun _ _ => answer_step hI.locked hstep
  -- most steps do nothing to the record
  have keep : s'.recordAt i = s.recordAt i → s.event? i l = none →
      (∀ q pass, s'.Carries q i pass ↔ s.Carries q i pass) →
      Serial s' i (events i ++ (s.event? i l).toList) d := by
    intro hrecord hevent hcarries
    rw [hevent, Option.toList_none, List.append_nil]
    exact (h i d (hrecord ▸ hd)).keep hanswer hcarries
  cases moves_of_step hstep with
  | refused e haccept =>
    exact keep rfl (by simp [State.event?, State.acceptance, haccept]) (carries_spawn _ rfl)
  | @revised request fresh id j haccept hget =>
    have hevent : s.event? i (.submit request fresh) =
        if j = i then some (.request request) else none := by
      simp [State.event?, acceptance_of_revised haccept hget]
    by_cases hji : j = i
    · subst hji
      rw [hevent, if_pos rfl, Option.toList_some]
      have hrevised : (s.mapRecord j (·.update request)).recordAt j = some d := hd
      rw [State.recordAt_mapRecord, if_pos rfl] at hrevised
      obtain ⟨d₀, hd₀, rfl⟩ := Option.map_eq_some_iff.1 hrevised
      exact ((h j d₀ hd₀).revised request).keep hanswer (carries_spawn _ rfl)
    · refine keep ?_ (hevent.trans (if_neg hji)) (carries_spawn _ rfl)
      exact (State.recordAt_mapRecord_or j i (·.update request)).resolve_right hji
  | @founded request fresh haccept _ =>
    have hevent : s.event? i (.submit request fresh) =
        if s.slots.length = i then some (.request request) else none := by
      simp [State.event?, acceptance_of_founded haccept]
    have hrecord := State.recordAt_found (s := s) (s.newRecord request fresh) i
    have hfound : (s.found (s.newRecord request fresh)).recordAt i = some d := hd
    by_cases hi : s.slots.length = i
    · -- the deployment is new, and nobody has a pass under way
      rw [hevent, if_pos hi, hnew (Nat.le_of_eq hi)]
      rw [hrecord, if_pos hi.symm] at hfound
      cases hfound
      refine ⟨fun _ => .founded _ request _ _, ?_⟩
      rintro q pass ⟨errand, batch, -, hq⟩
      have hplaced := hI.locked.placed_proc ((State.isWorking_spawn rfl).1 hq) rfl
      exact absurd hi (Nat.ne_of_gt hplaced)
    · exact keep (hrecord.trans (if_neg (Ne.symm hi))) (hevent.trans (if_neg hi))
        (carries_spawn _ rfl)
  | triggered id => exact keep rfl rfl (carries_spawn _ rfl)
  | unknown _ => exact keep rfl rfl (carries_spawn _ rfl)
  | unlisted _ => exact keep rfl rfl (carries_spawn _ rfl)
  | swept => exact keep (s.recordAt_sweep i) rfl carries_sweep
  | missed hproc _ =>
    exact keep rfl (event?_other hproc (.inr (by rintro _ ⟨⟩)) i) (carries_setStage hproc rfl rfl)
  | looked hproc _ =>
    exact keep rfl (event?_other hproc (.inr (by rintro _ ⟨⟩)) i) (carries_setStage hproc rfl rfl)
  | flagged hproc =>
    exact keep (State.recordAt_modifySlot (fun _ => by rfl) ..)
      (event?_other hproc (.inr (by rintro _ ⟨⟩)) i) (carries_setStage hproc rfl rfl)
  | locked hproc _ _ =>
    exact keep (State.recordAt_modifySlot (fun _ => by rfl) ..)
      (event?_other hproc (.inr (by rintro _ ⟨⟩)) i) (carries_setStage hproc rfl rfl)
  | waited hproc _ _ =>
    exact keep (State.recordAt_modifySlot (fun _ => by rfl) ..)
      (event?_other hproc (.inr (by rintro _ ⟨⟩)) i) (carries_setStage hproc rfl rfl)
  | @unplaced p errand j sl work e hproc hpass hslot hstart =>
    rw [State.mapRecord_mapRecord, (Pass.Ending.failed hstart).absorb] at hd keep hanswer ⊢
    have hevent := event?_admitted hproc hpass i
    by_cases hji : j = i
    · subst hji
      rw [hevent, if_pos rfl]
      have hserial := h j _ (State.recordAt_of_slot hslot)
      exact hserial.unplaced hI.locked hproc hslot hstart rfl hanswer hd
    · have hnot : ∀ {pass}, ¬ s.Carries p i pass := by
        rintro pass ⟨errand', batch, -, hp⟩
        cases hproc.symm.trans hp
      have hproc₁ : (s.mapRecord j fun _ => work).procs[p]? = some ⟨errand, .admitted j⟩ := hproc
      refine keep ?_ (hevent.trans (if_neg hji)) fun q pass =>
        carries_endProc (hI.locked.mapRecord ..) hproc₁ rfl _ hnot q
      exact (State.recordAt_endProc ..).trans
        ((State.recordAt_mapRecord_or j i _).resolve_right hji)
  | @turned p errand j s₁ s' progress hturn hfollow =>
    by_cases hji : j = i ∧ errand.IsPass
    · obtain ⟨rfl, hpass⟩ := hji
      obtain ⟨stage, hproc, hheld⟩ := hturn.held
      have hanswers : s₁.answer? = s.answer? := by
        funext q
        rw [State.answer?, hturn.procs, State.answer?]
      refine Serial.followed (hI.locked.turn hturn) hproc hheld hpass hfollow (hanswers ▸ hanswer)
        (fun d₁ hd₁ => ?_) hd
      rw [hanswers]
      exact Serial.turned hI (h j) hturn hpass hd₁
    · have hother : j ≠ i ∨ ¬ errand.IsPass := by
        rwa [Ne, ← not_and_or]
      exact keep (recordAt_turned hturn hfollow hother) (event?_turned hturn hother)
        (carries_turned hI.locked hturn hfollow hother)
  | issued hproc _ _ =>
    exact keep rfl (event?_other hproc (.inr (by rintro _ ⟨⟩)) i) fun q pass =>
      carries_work hproc _ q i pass
  | @called l p errand j pass batch batch' engine k hproc hcall =>
    exact keep rfl (event?_called hcall i) fun q pass =>
      carries_work (s := { s with engine }) hproc _ q i pass
  | elapsed now _ => exact keep rfl rfl fun _ _ => Iff.rfl
  | changed c => cases c <;> exact keep rfl rfl fun _ _ => Iff.rfl

/-- What a run leaves is what its events leave. -/
theorem Serial.run {s₀ : State} (h₀ : s₀.Fresh) {labels : List Label}
    (hrun : Control.run s₀ labels = some s) (hd : s.recordAt i = some d) :
    Serial s i (history i s₀ labels) d := by
  have hrun_all : Intact s ∧ (∀ i, s.slots.length ≤ i → history i s₀ labels = []) ∧
      ∀ i d, s.recordAt i = some d → Serial s i (history i s₀ labels) d := by
    refine run_induction (P := fun labels s => Intact s ∧
      (∀ i, s.slots.length ≤ i → history i s₀ labels = []) ∧
      ∀ i d, s.recordAt i = some d → Serial s i (history i s₀ labels) d) ?_ ?_ hrun
    · refine ⟨h₀.intact, fun _ _ => rfl, fun i d hd => ?_⟩
      rw [State.recordAt, h₀.slots] at hd
      cases hd
    · rintro labels s l s' hrun ⟨hI, hnew, h⟩ hstep
      refine ⟨hI.step hstep, fun i hi => ?_, fun i d hd => ?_⟩
      · rw [history_append hrun, hnew i ((length_step hstep).trans hi), event?_eq_none hI hstep hi]
        rfl
      · rw [history_append hrun]
        exact Serial.step hI (hnew _) h hstep hd
  exact hrun_all.2.2 i d hd

end

/-- **Requests and passes happen one after the other.** A record that takes back a pass is the one
that the requests since its beginning leave when they come after it; without any it is what the pass
left. So the record of a slot is what the requests and the passes leave in the order in which the
requests were accepted and the passes began. While a pass is under way the record is what they leave
without it, and the pass has come by its course from where it began. -/
theorem interleaving_serializes :
    (∀ (d work : Deployment) (result : Except Region.Error Report),
      Pass.Ending d.begun work result → d.begun.absorb work = work ∧
        ∀ requests, (d.begun.updateAll requests).absorb work = work.updateAll requests) ∧
    ∀ (s₀ s : State) (labels : List Label), s₀.Fresh → run s₀ labels = some s →
      ∀ i d, s.recordAt i = some d →
        ((∀ p pass, ¬ s.Carries p i pass) → Replay s.answer? (history i s₀ labels) d) ∧
        ∀ p pass, s.Carries p i pass → ∃ p₀ outs,
          Flight s.answer? p p₀ (history i s₀ labels) d ∧ Pass.Course p₀ pass outs := by
  refine ⟨fun d work result hending => ⟨hending.absorb, hending.absorb_requests⟩, ?_⟩
  intro s₀ s labels h₀ hrun i d hd
  have hserial := Serial.run h₀ hrun hd
  exact ⟨hserial.rest, fun _ _ => hserial.flight⟩

/-- A request comes while the call of a pass is under way, which fails. -/
def requestDuringPass : List Label :=
  [.change (.fail "n"), .submit { container := { image := "web" }, scale := 1 } "a"] ++
  List.replicate 4 (.advance 0) ++
  [.submit { deploymentId := some "a", container := { image := "db" }, scale := 2 } "b",
    .startCall 0 0, .advance 0]

theorem interleaving_serializes_requestDuringPass :
    oneNode.Fresh ∧ ∃ s d, run oneNode requestDuringPass = some s ∧ s.recordAt 0 = some d ∧
      (∀ p pass, ¬ s.Carries p 0 pass) ∧
      Replay s.answer? [.request { container := { image := "web" }, scale := 1 }, .pass 0,
        .request { deploymentId := some "a", container := { image := "db" }, scale := 2 }] d := by
  have hevents : history 0 oneNode requestDuringPass =
      [.request { container := { image := "web" }, scale := 1 }, .pass 0,
        .request { deploymentId := some "a", container := { image := "db" }, scale := 2 }] := by
    decide +kernel
  have hend : (run oneNode requestDuringPass).any fun s =>
      (s.recordAt 0).isSome && s.procs.all fun proc => !proc.stage.isWorking := by decide +kernel
  obtain ⟨s, hrun, hs⟩ := (Option.any_eq_true ..).1 hend
  rw [Bool.and_eq_true] at hs
  obtain ⟨d, hd⟩ := Option.isSome_iff_exists.1 hs.1
  have hidle : ∀ p pass, ¬ s.Carries p 0 pass := by
    rintro p pass ⟨errand, batch, -, hp⟩
    cases Array.all_eq_true'.1 hs.2 _ (Array.mem_of_getElem? hp)
  refine ⟨fresh_oneNode, s, d, hrun, hd, hidle, ?_⟩
  rw [← hevents]
  exact (interleaving_serializes.2 oneNode s _ fresh_oneNode hrun 0 d hd).1 hidle

end Control

end FleetControl
