import FleetControl.Proofs.Control.Answers
import FleetControl.Proofs.Control.Tally

/-!
# The published state tells the truth

The published record of a deployment is truthful in every state of every run, whatever its passes
meet with: this is read off how requests and passes happen one after the other (`Replay.truthful`).

When all processes are over the record is settled, that is, converged or degraded. For this a pass
has to begin after the last request for the deployment: the request starts a process that looks for
the deployment, and until a pass begins on its slot one is *due* (`Control.Due`). In the end the
last that happened to a listed slot is a pass (`Control.Tended`).

A pass whose plan has more permits than can be counted leaves the record as it began
(`Control.abandoned_unsettled`). The tree of regions is sound in whatever a configuration sets up
(`Control.sound_ofConfig`).
-/

namespace FleetControl

namespace Control

/-! ### Truth -/

section

variable {answers : ProcId → Option Answer} {events : List Event} {d : Deployment} {p : ProcId}
  {p₀ : Pass} {answer : Answer} {report : Report}

theorem Replay.truthful (h : Replay answers events d) : d.Truthful := by
  induction h with
  | founded id request capacity now => exact Deployment.truthful_new id request capacity now
  | revised request _ ih => exact ih.update request
  | passed _ hend _ _ _ => exact hend.truthful
  | aborted _ _ ih => exact ih.begun

theorem Flight.truthful (h : Flight answers p p₀ events d) : d.Truthful := by
  cases h with
  | intro requests hbefore _ => exact hbefore.truthful.begun.updateAll requests

theorem Serial.truthful {s : State} {i : SlotId} (h : Serial s i events d) : d.Truthful := by
  by_cases hidle : ∀ p pass, ¬ s.Carries p i pass
  · exact (h.rest hidle).truthful
  · simp only [not_forall, not_not] at hidle
    obtain ⟨p, pass, hcarries⟩ := hidle
    obtain ⟨p₀, outs, hflight, -⟩ := h.flight hcarries
    exact hflight.truthful

/-- A record is settled when the last that happened to it is a pass that came to its end. -/
theorem Replay.settled (h : Replay answers (events ++ [.pass p]) d)
    (hanswer : answers p = some answer) (hgives : answer.Gives (.ok report)) :
    d.state = .converged ∨ d.state = .degraded := by
  generalize hlast : events ++ [Event.pass p] = all at h
  cases h with
  | founded id request capacity now =>
    cases (List.append_inj' (hlast.trans (List.nil_append _).symm) rfl).2
  | revised request _ => cases (List.append_inj' hlast rfl).2
  | passed _ hend hanswer' hgives' =>
    cases (List.append_inj' hlast rfl).2
    cases hanswer.symm.trans hanswer'
    cases hgives <;> cases hgives' <;> exact hend.settled
  | aborted _ hanswer' =>
    cases (List.append_inj' hlast rfl).2
    cases hanswer.symm.trans hanswer'
    cases hgives

end

/-! ### Passes that are due -/

/-- The process has to begin a pass on the slot when it gets there. -/
inductive Due (s : State) (i : SlotId) (q : ProcId) : Prop
  | lookup {errand : Errand} {id : String} : errand.IsPass →
      s.procs[q]? = some ⟨errand, .lookup id⟩ → s.index.get? id = some i → Due s i q
  | entering {errand : Errand} {stage : Stage} : errand.IsPass →
      s.procs[q]? = some ⟨errand, stage⟩ →
      stage = .approach i ∨ stage = .queued i ∨ stage = .admitted i → Due s i q

/-- The process has begun its pass, and has come to no trouble with it. -/
inductive Begun (s : State) (p : ProcId) : Prop
  | working {errand : Errand} {i : SlotId} {pass : Pass} {batch : Batch} : errand.IsPass →
      s.IsWorking p errand i pass batch → Begun s p
  | answered {answer : Answer} {report : Report} : s.answer? p = some answer →
      answer.Gives (.ok report) → Begun s p

/-- A pass is due on the slot, or the last that happened to it is that a pass began. -/
inductive Tended (s : State) (i : SlotId) : List Event → Prop
  | due {events : List Event} {q : ProcId} : Due s i q → Tended s i events
  | begun {before : List Event} {p : ProcId} : Begun s p → Tended s i (before ++ [.pass p])

section

variable {s s' s₁ : State} {l : Label} {p q : ProcId} {errand : Errand} {stage : Stage}
  {i : SlotId} {events : List Event} {progress : Progress} {request : Request} {d : Deployment}

/-- A request that is accepted starts a process that looks for the deployment. -/
theorem due_of_request (h : s.event? i l = some (.request request)) (hstep : step s l = some s') :
    ∃ q, Due s' i q := by
  cases l with
  | submit request' fresh =>
    cases haccept : s.accept request' fresh with
    | error e => simp [State.event?, State.acceptance, haccept] at h
    | ok result =>
      obtain ⟨s₁, id⟩ := result
      have hget : s₁.index.get? id = some i := by
        simp only [State.event?, State.acceptance, haccept, Option.bind_eq_some_iff,
          Option.map_eq_some_iff] at h
        obtain ⟨_, ⟨j, hget, rfl⟩, hevent⟩ := h
        split at hevent
        · next hji => exact hji ▸ hget
        · cases hevent
      simp only [step, State.submit, haccept, Option.some.injEq] at hstep
      subst hstep
      have hpass : (Errand.submit id).IsPass := by rintro _ ⟨⟩
      have hproc : (s₁.spawn (.submit id) (.lookup id)).1.procs[s₁.procs.size]? =
          some ⟨.submit id, .lookup id⟩ := by
        rw [State.procs_spawn, if_pos rfl]
      exact ⟨s₁.procs.size, .lookup hpass hproc hget⟩
  | advance p =>
    simp only [State.event?] at h
    split at h <;> cases h
  | _ => cases h

/-- A pass begins by the step of a process that has the lock. -/
theorem event?_eq_pass (h : s.event? i l = some (.pass q)) :
    l = .advance q ∧ ∃ errand, errand.IsPass ∧ s.procs[q]? = some ⟨errand, .admitted i⟩ := by
  cases l with
  | submit request fresh =>
    simp only [State.event?, Option.bind_eq_some_iff] at h
    obtain ⟨_, -, hevent⟩ := h
    split at hevent <;> cases hevent
  | advance p =>
    simp only [State.event?] at h
    split at h
    · next hopens =>
      cases h
      obtain ⟨⟨errand, stage⟩, hproc, hopens⟩ := (Option.any_eq_true ..).1 hopens
      refine ⟨rfl, errand, ?_⟩
      unfold Proc.opens at hopens
      split at hopens
      · cases hopens
      · next hdelete heq =>
        cases heq
        rw [beq_iff_eq] at hopens
        exact ⟨fun id hid => hdelete id (by rw [hid]), hopens ▸ hproc⟩
      · cases hopens
    · cases h
  | _ => cases h

theorem Follow.begun (hl : Locked s) (hcap : Countable s) (hpass : errand.IsPass)
    (hproc : s.procs[p]? = some ⟨errand, stage⟩) (hheld : stage.held? = some i)
    (hfollow : Follow s p errand i progress s') : Begun s' p := by
  cases hfollow with
  | dispatched pass _ => exact .working hpass (State.procs_setStage_self hproc _)
  | aborted pass hover => exact absurd hover (Nat.not_lt.2 (hcap.permits_le _))
  | published work report _ =>
    have hl₁ : Locked (s.mapRecord i (·.absorb work)) := hl.mapRecord ..
    exact .answered (answer?_endProc hl₁ hproc hheld _) (gives_answerOf hpass work report)
  | deleted id work report hdelete => exact absurd hdelete (hpass id)

/-- A process that begins a pass comes to no trouble with it. -/
theorem begun_of_pass (hs : Reliable s) (h : s.event? i l = some (.pass q))
    (hstep : step s l = some s') : Begun s' q := by
  obtain ⟨rfl, errand, hpass, hq⟩ := event?_eq_pass h
  cases ownMove_of_step hq hstep rfl with
  | unplaced _ hslot hstart => exact absurd hstart (hs.placed.start_ne_failed hslot _ _)
  | turned hheld hturn hfollow =>
    cases hheld
    have hl := hs.lively.intact.locked.turn hturn
    exact hfollow.begun hl (hs.countable.turn hturn) hpass (hturn.procs ▸ hq) rfl

theorem Begun.step (h : Begun s p) (hs : Reliable s) (hstep : Control.step s l = some s') :
    Begun s' p := by
  have hl := hs.lively.intact.locked
  cases h with
  | @working errand i pass batch hpass hp =>
    by_cases hactor : l.actor? = some p
    · cases workStep_of_step hp hstep hactor with
      | issued _ _ => exact .working hpass (State.procs_setStage_self hp _)
      | started _ => exact .working hpass (State.procs_setStage_self hp _)
      | settled _ => exact .working hpass (State.procs_setStage_self hp _)
      | concluded _ _ hfollow => exact hfollow.begun hl hs.countable hpass hp rfl
    · rcases proc_step hl hstep hactor hp with hsame | ⟨j, ⟨⟩, -⟩
      exact .working hpass hsame
  | answered hanswer hgives => exact .answered (answer_step hl hstep hanswer) hgives

/-- A pass that is due stays due until it begins. -/
theorem Due.step (h : Due s i q) (hI : Intact s) (hstep : Control.step s l = some s')
    (hlisted : s'.Listed i) : Due s' i q ∨ s.event? i l = some (.pass q) := by
  cases h with
  | @lookup errand id hpass hq hget =>
    left
    have hget' : s'.index.get? id = some i := by
      obtain ⟨id', hlisted⟩ := hlisted
      rcases listed_step hstep hlisted with hold | ⟨hi, -⟩
      · exact hI.injective hold hget ▸ hlisted
      · exact absurd hi (Nat.ne_of_lt (hI.bound hget))
    by_cases hactor : l.actor? = some q
    · cases ownMove_of_step hq hstep hactor with
      | missed hnone => cases hget.symm.trans hnone
      | looked hfound =>
        cases hget.symm.trans hfound
        exact .entering hpass (State.procs_setStage_self hq _) (.inl rfl)
      | turned hheld _ _ => cases hheld
    · rcases proc_step hI.locked hstep hactor hq with hsame | ⟨j, ⟨⟩, -⟩
      exact .lookup hpass hsame hget'
  | @entering errand stage hpass hq hstage =>
    by_cases hactor : l.actor? = some q
    · rcases hstage with rfl | rfl | rfl
      · obtain ⟨-, ⟨⟨⟩, -⟩ | ⟨-, hnext⟩⟩ := entry_of_step hI.locked hq rfl rfl hstep hactor
        left
        rcases hnext with hadmitted | hqueued
        · exact .entering hpass hadmitted (.inr (.inr rfl))
        · exact .entering hpass hqueued (.inr (.inl rfl))
      · obtain ⟨-, ⟨⟨⟩, -⟩ | ⟨⟨⟩, -⟩⟩ := entry_of_step hI.locked hq rfl rfl hstep hactor
      · right
        obtain rfl := advance_of_actor hq rfl hstep hactor
        rw [event?_admitted hq hpass, if_pos rfl]
    · left
      rcases proc_step hI.locked hstep hactor hq with hsame | ⟨j, rfl, hadmitted⟩
      · exact .entering hpass hsame hstage
      · obtain rfl : j = i := by simpa using hstage
        exact .entering hpass hadmitted (.inr (.inr rfl))

/-- **A step keeps listed slots tended.** -/
theorem Tended.step (h : s.Listed i → Tended s i events) (hs : Reliable s)
    (hstep : Control.step s l = some s') (hlisted : s'.Listed i) :
    Tended s' i (events ++ (s.event? i l).toList) := by
  cases hevent : s.event? i l with
  | some event =>
    cases event with
    | request request =>
      obtain ⟨q, hdue⟩ := due_of_request hevent hstep
      exact .due hdue
    | pass p => exact .begun (begun_of_pass hs hevent hstep)
  | none =>
    have hbefore : s.Listed i := by
      obtain ⟨id, hget⟩ := hlisted
      rcases listed_step hstep hget with hold | ⟨rfl, -, request, fresh, rfl, haccept, -⟩
      · exact ⟨id, hold⟩
      · simp [State.event?, acceptance_of_founded haccept] at hevent
    cases h hbefore with
    | due hdue =>
      refine .due (hdue.step hs.lively.intact hstep hlisted |>.resolve_right ?_)
      simp [hevent]
    | begun hbegun =>
      rw [Option.toList_none, List.append_nil]
      exact .begun (hbegun.step hs hstep)

theorem tended_run {s₀ : State} (h₀ : s₀.Fresh) (hs₀ : Reliable s₀) {labels : List Label}
    (hrun : run s₀ labels = some s) (hlisted : s.Listed i) :
    Tended s i (history i s₀ labels) := by
  refine run_induction (P := fun labels s => ∀ i, s.Listed i →
    Tended s i (history i s₀ labels)) ?_ ?_ hrun i hlisted
  · rintro i ⟨id, hget⟩
    rw [h₀.index, SortedMap.get?_empty] at hget
    cases hget
  · intro labels s l s' hrun h hstep i hlisted
    rw [history_append hrun]
    exact Tended.step (h i) (hs₀.run hrun) hstep hlisted

/-! ### When all is over -/

/-- All processes are over. -/
def State.Over (s : State) : Prop := ∀ q < s.procs.size, (s.answer? q).isSome

theorem State.Over.ended (h : s.Over) (hq : s.procs[q]? = some ⟨errand, stage⟩) :
    ∃ answer, stage = .ended answer := by
  obtain ⟨hlt, -⟩ := Array.getElem?_eq_some_iff.1 hq
  obtain ⟨answer, hanswer⟩ := Option.isSome_iff_exists.1 (h q hlt)
  obtain ⟨errand', hended⟩ := State.answer?_eq_some.1 hanswer
  cases hq.symm.trans hended
  exact ⟨answer, rfl⟩

/-- When all is over the record of a slot that is tended is settled. -/
theorem Tended.settled (h : Tended s i events) (hserial : Serial s i events d) (hover : s.Over) :
    d.state = .converged ∨ d.state = .degraded := by
  have hidle : ∀ p pass, ¬ s.Carries p i pass := by
    rintro p pass ⟨errand, batch, -, hp⟩
    obtain ⟨answer, ⟨⟩⟩ := hover.ended hp
  cases h with
  | due hdue =>
    cases hdue with
    | lookup _ hq _ => obtain ⟨answer, ⟨⟩⟩ := hover.ended hq
    | entering _ hq hstage =>
      obtain ⟨answer, rfl⟩ := hover.ended hq
      simp at hstage
  | begun hbegun =>
    cases hbegun with
    | working _ hp => obtain ⟨answer, ⟨⟩⟩ := hover.ended hp
    | answered hanswer hgives => exact (hserial.rest hidle).settled hanswer hgives

end

/-! ### What is published -/

/-- What the published record of a slot says in a state that a run leads to. The count of passes has
32 bits, so it is right as long as there are fewer than `2 ^ 32` reports. -/
structure Published (s₀ : State) (labels : List Label) (i : SlotId) (d : Deployment) : Prop where
  /-- The state is true of the instances. -/
  truthful : d.Truthful
  /-- The report is that of the last pass that came to its end. -/
  lastReport : d.lastReport = (reports i s₀ labels).getLast?
  /-- The passes are counted that came to their end since the last that converged. -/
  counted : (reports i s₀ labels).length < 2 ^ 32 →
    d.consecutiveDegradedPasses =
        ((reports i s₀ labels).rtakeWhile (·.state != .converged)).length ∧
      d.consecutiveDegradedPasses < 2 ^ 32
  /-- There is none to count exactly if the last converged. -/
  uncounted : (reports i s₀ labels).length < 2 ^ 32 → ∀ report, d.lastReport = some report →
    (d.consecutiveDegradedPasses = 0 ↔ report.state = .converged)

theorem published_of_run {s₀ s : State} {labels : List Label} {i : SlotId} {d : Deployment}
    (h₀ : s₀.Fresh) (hrun : run s₀ labels = some s) (hd : s.recordAt i = some d) :
    Published s₀ labels i d := by
  have htally := tally_run h₀ hrun hd
  have hlast : d.lastReport = (Report.tally (reports i s₀ labels)).1 := congrArg Prod.fst htally
  have hcount : d.consecutiveDegradedPasses = (Report.tally (reports i s₀ labels)).2 :=
    congrArg Prod.snd htally
  refine ⟨(Serial.run h₀ hrun hd).truthful, hlast, fun hfew => ⟨hcount, ?_⟩,
    fun _ report hreport => ?_⟩
  · rw [hcount]
    exact (List.rtakeWhile_suffix _ _).length_le.trans_lt hfew
  · rw [hcount]
    exact Report.tally_eq_zero_iff (hlast.symm.trans hreport)

/-- **The published state tells the truth.** Whatever the requests, the passes and the world do,
records say how their instances stand and how their passes went; and when all processes are over,
each deployment that is listed has converged or is degraded, as its instances are. -/
theorem published_tells_truth {s₀ s : State} {labels : List Label} (h₀ : s₀.Fresh)
    (hrun : run s₀ labels = some s) :
    (∀ i d, s.recordAt i = some d → Published s₀ labels i d) ∧
      (s₀.tree.Sound → s₀.settings.maxConcurrentDispatches.toNat ≤ Batch.maxPermits → s.Over →
        ∀ id d, s.record? id = some d → (d.state = .converged ∨ d.state = .degraded) ∧
          (d.state = .converged ↔ d.needsConvergence = false)) := by
  refine ⟨fun i d => published_of_run h₀ hrun, fun ht hcap hover id d hd => ?_⟩
  obtain ⟨i, hget, hslot⟩ := Option.bind_eq_some_iff.1 hd
  obtain ⟨sl, hsl, ⟨⟩⟩ := Option.bind_eq_some_iff.1 hslot
  have hserial := Serial.run h₀ hrun (State.recordAt_of_slot hsl)
  have hsettled :=
    (tended_run h₀ (h₀.reliable ht hcap) hrun ⟨id, hget⟩).settled hserial hover
  exact ⟨hsettled, hserial.truthful.converged_iff hsettled⟩

/-- Two passes fail, and one goes through when the node has recovered. -/
def recovery : List Label :=
  [.change (.fail "n"),
    .submit { deploymentId := some "a", container := { image := "web" }, scale := 1 } "x",
    .advance 0, .advance 0, .advance 0, .advance 0, .startCall 0 0, .advance 0,
    .trigger "a", .advance 1, .advance 1, .advance 1, .advance 1, .startCall 1 0, .advance 1,
    .change (.recover "n"),
    .sweep, .advance 2, .advance 2, .advance 2, .startCall 2 0, .advance 2]

theorem published_tells_truth_recovery : oneNode.Fresh ∧ oneNode.tree.Sound ∧
    oneNode.settings.maxConcurrentDispatches.toNat ≤ Batch.maxPermits ∧
    ∃ s d, run oneNode recovery = some s ∧ s.Over ∧ s.record? "a" = some d ∧
      s.recordAt 0 = some d ∧ Published oneNode recovery 0 d ∧
      (reports 0 oneNode recovery).map (·.state) = [.degraded, .degraded, .converged] ∧
      d.consecutiveDegradedPasses = 0 ∧ (d.state = .converged ∨ d.state = .degraded) ∧
      (d.state = .converged ↔ d.needsConvergence = false) := by
  have ht : oneNode.tree.Sound := Region.Tree.sound_new
  have hcap : oneNode.settings.maxConcurrentDispatches.toNat ≤ Batch.maxPermits := by decide +kernel
  have hreports : (reports 0 oneNode recovery).map (·.state) =
      [.degraded, .degraded, .converged] := by decide +kernel
  have hfew : (reports 0 oneNode recovery).length < 2 ^ 32 := by decide +kernel
  have hnone : ((reports 0 oneNode recovery).rtakeWhile (·.state != .converged)).length = 0 := by
    decide +kernel
  have hend : (run oneNode recovery).any fun s =>
      (List.range s.procs.size).all (fun q => (s.answer? q).isSome) && (s.record? "a").isSome &&
      s.record? "a" == s.recordAt 0 := by decide +kernel
  obtain ⟨s, hrun, hs⟩ := (Option.any_eq_true ..).1 hend
  simp only [Bool.and_eq_true, List.all_eq_true, List.mem_range, beq_iff_eq,
    Option.isSome_iff_exists] at hs
  obtain ⟨⟨hanswers, d, hd⟩, hrecord⟩ := hs
  have hover : s.Over := fun q hq => Option.isSome_iff_exists.2 (hanswers q hq)
  obtain ⟨hpublished, hquiet⟩ := published_tells_truth fresh_oneNode hrun
  obtain ⟨hsettled, hconverged⟩ := hquiet ht hcap hover "a" d hd
  have htrue : Published oneNode recovery 0 d := hpublished 0 d (hrecord ▸ hd)
  exact ⟨fresh_oneNode, ht, hcap, s, d, hrun, hover, hd, hrecord ▸ hd, htrue, hreports,
    (htrue.counted hfew).1.trans hnone, hsettled, hconverged⟩

/-- A deployment is submitted, and its first pass begins. -/
def firstRequest : List Label :=
  [.submit { deploymentId := some "a", container := { image := "web" }, scale := 1 } "x",
    .advance 0, .advance 0, .advance 0]

/-- When all is over a listed deployment is neither converged nor degraded. -/
theorem abandoned_unsettled : manyPermits.Fresh ∧ manyPermits.tree.Sound ∧
    ∃ s d, run manyPermits firstRequest = some s ∧ s.Over ∧ s.record? "a" = some d ∧
      d.state = .converging ∧ d.needsConvergence = true := by
  have hend : (run manyPermits firstRequest).any fun s =>
      (List.range s.procs.size).all (fun q => (s.answer? q).isSome) &&
      (s.record? "a").any fun d => d.state == .converging && d.needsConvergence := by
    decide +kernel
  obtain ⟨s, hrun, hs⟩ := (Option.any_eq_true ..).1 hend
  simp only [Bool.and_eq_true, List.all_eq_true, List.mem_range] at hs
  obtain ⟨hover, hrecord⟩ := hs
  obtain ⟨d, hd, hstate⟩ := (Option.any_eq_true ..).1 hrecord
  rw [Bool.and_eq_true, beq_iff_eq] at hstate
  exact ⟨⟨rfl, rfl, rfl⟩, Region.Tree.sound_new, s, d, hrun, hover, hd, hstate.1, hstate.2⟩

end Control

end FleetControl
