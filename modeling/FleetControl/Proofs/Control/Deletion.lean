import FleetControl.Proofs.Control.Drain
import FleetControl.Proofs.Control.Overlap

/-!
# Deletions are final

A deployment that is deleted is taken out of the index at once, and its slot is never listed again
(`Control.Unlisted`). The process that deletes it sets the flag of the slot, waits for the lock, and
drains the record that it finds then (`Control.Deleting`). What this comes to is the list of
promises `Control.Final`, which every deletion keeps (`Control.deletion_final`), whatever passes are
under way on the slot, wait for it or are still to begin.
-/

namespace FleetControl

namespace Control

section

variable {s₀ s s' : State} {labels : List Label} {l : Label} {p : ProcId} {id : String}
  {i : SlotId}

/-! ### Unlisted slots -/

/-- A step keeps the ids of instances distinct. -/
theorem upkeep_distinct (s : State) (l : Label) :
    Upkeep s l (fun _ d => d.DistinctIds) (fun _ d => d.DistinctIds) (fun _ _ _ p₀ => p₀.Sound)
      (fun _ _ _ p₀ => p₀.Sound) := by
  have hsame : ∀ {d d' : Deployment}, d.DistinctIds → d'.id = d.id → d'.instances = d.instances →
      d'.nextSeq = d.nextSeq → d'.DistinctIds := fun hd hid hinst hseq =>
    hd.of_sublist hid (hinst ▸ List.Sublist.refl _) hseq
  have hbegun : ∀ {d : Deployment}, d.DistinctIds → d.begun.DistinctIds := by
    intro d hd
    obtain ⟨state, heq⟩ := d.begun_eq
    rw [heq]
    exact hsame hd rfl rfl rfl
  constructor
  case record_mono => exact fun hd => hd
  case pass_mono => exact fun hp => hp
  case founded => exact fun _ _ => ⟨List.nodup_nil, fun j hj => absurd hj List.not_mem_nil⟩
  case revised => exact fun _ _ _ hd => hsame hd rfl rfl rfl
  case begun => exact fun hd => hbegun hd
  case unplaced =>
    intro i d work e hd hstart
    obtain ⟨hcopy, hinst, hseq⟩ := Pass.start_failed hstart
    refine Deployment.DistinctIds.absorb ((hbegun hd).of_sublist hcopy.id ?_ hseq) _
    exact hinst ▸ Pass.dropLost_sublist ..
  case opened =>
    exact fun _ _ _ _ hd hstart => Pass.sound_of_start (hbegun hd) hstart
  case drained => exact fun _ _ _ hd => Pass.sound_startDrain _ hd
  case finished =>
    intro p errand i p₀ q outs f work report d _ hb hcourse _ hend _
    obtain ⟨hcopy, hinst, hseq⟩ := Pass.finished_eq hend
    exact (hsame (hcourse.sound hb).distinctIds hcopy.id hinst hseq).absorb d

/-- What runs keep, with a slot that is not listed. -/
structure Unlisted (i : SlotId) (s : State) : Prop where
  intact : Intact s
  capped : Capped s
  distinct : Tracks (fun _ d => d.DistinctIds) (fun _ _ _ p₀ => p₀.Sound) s
  bound : i < s.slots.length
  listed : ¬ s.Listed i

/-- A slot that is not listed never is again. -/
theorem Unlisted.step (h : Unlisted i s) (hstep : Control.step s l = some s') : Unlisted i s' where
  intact := h.intact.step hstep
  capped := h.capped.step hstep
  distinct := h.distinct.step (upkeep_distinct s l) hstep
  bound := Nat.lt_of_lt_of_le h.bound (length_step hstep)
  listed := by
    rintro ⟨id, hget⟩
    rcases listed_step hstep hget with hold | ⟨hi, -⟩
    · exact h.listed ⟨id, hold⟩
    · exact absurd hi (Nat.ne_of_lt h.bound)

theorem Unlisted.run (h : Unlisted i s) (hrun : Control.run s labels = some s') : Unlisted i s' :=
  run_induction (P := fun _ s' => Unlisted i s') h (fun _ _ _ _ _ hs hstep => hs.step hstep) hrun

/-- What is listed under an id that was not listed was founded in the meantime. -/
theorem founded_of_listed (hnone : s₀.index.get? id = none) (hrun : run s₀ labels = some s) :
    ∀ {j}, s.index.get? id = some j → Founded s₀ labels id j := by
  refine run_induction (P := fun labels s => ∀ {j}, s.index.get? id = some j →
    Founded s₀ labels id j) (fun hget => ?_) ?_ hrun
  · cases hnone.symm.trans hget
  · intro labels s l s' hrun h hstep j hget
    rcases listed_step hstep hget with hold | ⟨rfl, -, request, fresh, rfl, haccept, hid⟩
    · exact (h hold).append l
    · exact ⟨labels, request, fresh, s, List.prefix_refl _, hrun, haccept, rfl, hid⟩

/-! ### The course of a deletion -/

/-- After the steps the process that deletes a deployment has taken the lock of its slot. No pass is
under way there, the flag is set, and the record is given. -/
structure TakesLock (s₀ : State) (labels : List Label) (p : ProcId) (id : String) (i : SlotId)
    (d : Deployment) (s : State) : Prop where
  run : run s₀ labels = some s
  admitted : s.procs[p]? = some ⟨.delete id, .admitted i⟩
  record : s.recordAt i = some d
  cancelled : s.cancelledAt i = some true
  idle : s.Idle i

/-- How far the process is that deletes a deployment: on its way to the lock, or draining what it
found when it took the lock. -/
inductive Deleting (s₀ : State) (p : ProcId) (id : String) (i : SlotId) (labels : List Label)
    (s : State) : Prop
  | entering {stage : Stage} : s.procs[p]? = some ⟨.delete id, stage⟩ → stage.slot? = some i →
      stage.held? = none → (stage = .flag i ∨ s.cancelledAt i = some true) →
      (∀ k, starts p k labels = 0) → Deleting s₀ p id i labels s
  | draining {before after : List Label} {s₁ : State} {d : Deployment} :
      labels = before ++ after → TakesLock s₀ before p id i d s₁ → (∀ k, starts p k before = 0) →
      (d.instances.map (·.id)).Nodup → run s₁ after = some s → Draining s₁ p id i d after s →
      Deleting s₀ p id i labels s

theorem run_concat (hrun : run s₀ labels = some s) (hstep : step s l = some s') :
    run s₀ (labels ++ [l]) = some s' := by
  rw [run_append, hrun]
  exact hstep

/-- The process gets the lock. -/
theorem Deleting.take (hrun : Control.run s₀ labels = some s) (hs : Unlisted i s)
    (hp : s.procs[p]? = some ⟨.delete id, .admitted i⟩) (hcancelled : s.cancelledAt i = some true)
    (hnone : ∀ k, starts p k labels = 0) : Deleting s₀ p id i labels s := by
  obtain ⟨d, hrecord⟩ := State.exists_recordAt hs.bound
  exact .draining (List.append_nil _).symm
    ⟨hrun, hp, hrecord, hcancelled, State.idle_of_admitted hs.intact.locked hp⟩ hnone
    (hs.distinct.record hrecord).nodup rfl (.admitted hp hrecord fun _ => rfl)

/-- **A deletion takes its course.** -/
theorem Deleting.step (h : Deleting s₀ p id i labels s) (hrun : Control.run s₀ labels = some s)
    (hs : Unlisted i s) (hstep : Control.step s l = some s') :
    Deleting s₀ p id i (labels ++ [l]) s' := by
  have hrun' := run_concat hrun hstep
  have hs' := hs.step hstep
  cases h with
  | @entering stage hp hslot hfree hflag hnone =>
    have hflag' : stage ≠ .flag i → s'.cancelledAt i = some true := fun hne =>
      cancelledAt_step hstep (hflag.resolve_left hne)
    by_cases hactor : l.actor? = some p
    · obtain ⟨rfl, hentry⟩ := entry_of_step hs.intact.locked hp hslot hfree hstep hactor
      have hnone' : ∀ k, starts p k (labels ++ [.advance p]) = 0 := fun k => by
        rw [starts_concat, hnone]
        rfl
      rcases hentry with ⟨-, hp', hcancelled⟩ | ⟨rfl, hp' | hp'⟩
      · exact .entering hp' rfl rfl (.inr hcancelled) hnone'
      · exact .take hrun' hs' hp' (hflag' (by simp)) hnone'
      · exact .entering hp' rfl rfl (.inr (hflag' (by simp))) hnone'
    · have hnone' := fun k => (starts_of_other hactor k labels).trans (hnone k)
      rcases proc_step hs.intact.locked hstep hactor hp with hp' | ⟨j, rfl, hp'⟩
      · refine .entering hp' hslot hfree ?_ hnone'
        exact hflag.imp_right fun hcancelled => cancelledAt_step hstep hcancelled
      · -- the lock is handed to the process
        cases hslot
        exact .take hrun' hs' hp' (hflag' (by simp)) hnone'
  | @draining before after s₁ d heq htakes hnone hd hrest hdrain =>
    have heq' : labels ++ [l] = before ++ (after ++ [l]) := by rw [heq, List.append_assoc]
    refine .draining heq' htakes hnone hd (run_concat hrest hstep) ?_
    exact hdrain.step hrest hs.intact hs.capped hs.listed hd hstep

theorem Deleting.run (h : Deleting s₀ p id i [] s₀) (hs : Unlisted i s₀)
    (hrun : Control.run s₀ labels = some s) : Deleting s₀ p id i labels s :=
  run_induction (P := fun labels s => Deleting s₀ p id i labels s) h
    (fun _ _ _ _ hrun h hstep => h.step hrun (hs.run hrun) hstep) hrun

/-! ### What a deletion comes to -/

/-- The process has answered for the deployment that was on the slot: it took the lock, found a
record there, and called one removal for every instance of it. The record that it answers with has
the instances of which the removal came to an error, and has converged if there are none. -/
def Answered (s₀ : State) (labels : List Label) (p : ProcId) (id : String) (i : SlotId)
    (answer : Answer) : Prop :=
  ∃ before after s₁ d results final, labels = before ++ after ∧
    TakesLock s₀ before p id i d s₁ ∧ answer = .deleted final ∧ Drained d results final ∧
    (∀ k, starts p k labels = if k < d.instances.length then 1 else 0) ∧
    ∀ k target result, d.instances[k]? = some target → results[k]? = some result →
      CameTo s₀ labels p k (.remove target false) result

theorem CameTo.of_suffix {before : List Label} {k : Nat} {x : Dispatch}
    {result : Except DispatchError String} (hrun : run s₀ before = some s)
    (h : CameTo s labels p k x result) : CameTo s₀ (before ++ labels) p k x result := by
  obtain ⟨middle, s', batch, hbefore, hrest, hbatch⟩ := h
  refine ⟨before ++ middle, s', batch, (List.prefix_append_right_inj before).2 hbefore, ?_, hbatch⟩
  rw [run, List.foldlM_append]
  exact Option.bind_eq_some_iff.2 ⟨s, hrun, hrest⟩

theorem Deleting.answered (h : Deleting s₀ p id i labels s) {answer : Answer}
    (hanswer : s.answer? p = some answer) : Answered s₀ labels p id i answer := by
  obtain ⟨errand, hproc⟩ := State.answer?_eq_some.1 hanswer
  cases h with
  | entering hp hslot _ _ _ =>
    cases hproc.symm.trans hp
    cases hslot
  | @draining before after s₁ d heq htakes hnone _ hrest hdrain =>
    cases hdrain with
    | admitted hp _ _ => cases hproc.symm.trans hp
    | working hp _ _ => cases hproc.symm.trans hp
    | @ended results final hp hdrained hstarts hcame =>
      cases hanswer.symm.trans hp
      refine ⟨before, after, s₁, d, results, final, heq, htakes, rfl, hdrained, fun k => ?_, ?_⟩
      · rw [heq, starts, List.countP_append, ← starts, ← starts, hnone, hstarts, Nat.zero_add]
      · intro k target result htarget hresult
        exact heq ▸ (hcame k target result htarget hresult).of_suffix htakes.run

/-- What is promised of the process that deletes the deployment that is on the slot, from the state
on in which it begins. -/
structure Final (s₀ : State) (p : ProcId) (id : String) (i : SlotId) : Prop where
  /-- Its first step sets the flag of the slot, which stays set. -/
  flagged : ∀ {labels s}, run s₀ labels = some s →
    s.procs[p]? = some ⟨.delete id, .flag i⟩ ∨ s.cancelledAt i = some true
  /-- From then on no pass on the slot hands out a call. -/
  silent : ∀ {labels more s s'}, run s₀ labels = some s → s.cancelledAt i = some true →
    run s more = some s' → ∀ q pass k, s'.HandedOut q i pass k → s.HandedOut q i pass k
  /-- What begins or ends after that is a call that was handed out before. -/
  reached : ∀ {labels more s s' s'' l q k errand pass batch}, run s₀ labels = some s →
    s.cancelledAt i = some true → run s more = some s' → step s' l = some s'' →
    l = .startCall q k ∨ l = .settleCall q k → errand.IsPass →
    s'.IsWorking q errand i pass batch → s.HandedOut q i pass k
  /-- A pass on the slot leaves its plan when all calls are over, and their outcomes are recorded.
  -/
  recorded : ∀ {labels s s' l q errand pass batch}, run s₀ labels = some s → errand.IsPass →
    s.IsWorking q errand i pass batch → step s l = some s' →
    (∃ batch', s'.IsWorking q errand i pass batch' ∧ batch.Keeps batch') ∨
      batch.outcomes.map (·.dispatch) = pass.plan ∧
        s'.Records q errand i (pass.foldAll s.wall batch.outcomes).work
  /-- It can do so when all calls are over. -/
  leaves : ∀ {labels s q errand pass batch}, run s₀ labels = some s →
    s.IsWorking q errand i pass batch → batch.isDone → ∃ s', step s (.advance q) = some s'
  /-- Once it has the lock, the process can answer by steps of its own. -/
  ends : ∀ {labels s}, run s₀ labels = some s → s.holder i = some p →
    ∃ s' final, ReachesAlone p s s' ∧ s'.answer? p = some (.deleted final)
  /-- Whatever it answers, it has called the removal of every instance that it found. -/
  answered : ∀ {labels s answer}, run s₀ labels = some s → s.answer? p = some answer →
    Answered s₀ labels p id i answer
  /-- A deployment that is listed under the id was founded by a later request. -/
  absent : ∀ {labels s j}, run s₀ labels = some s → s.index.get? id = some j →
    Founded s₀ labels id j

theorem final_of_deleting (h : ∀ {labels s}, run s₀ labels = some s → Deleting s₀ p id i labels s)
    (hs : Unlisted i s₀) (hnone : s₀.index.get? id = none) : Final s₀ p id i where
  flagged := fun hrun => by
    cases h hrun with
    | entering hp _ _ hflag _ =>
      rcases hflag with rfl | hcancelled
      · exact .inl hp
      · exact .inr hcancelled
    | draining _ htakes _ _ hrest _ => exact .inr (handedOut_run hrest htakes.cancelled).1
  silent := fun _ hcancelled hrest => (handedOut_run hrest hcancelled).2
  reached := fun _ hcancelled hrest hstep hl hpass hq =>
    (handedOut_run hrest hcancelled).2 _ _ _ (handedOut_of_called hstep hl hpass hq)
  recorded := fun hrun hpass hq hstep => by
    have hsafe := hs.run hrun
    refine (working_step hsafe.intact.locked hstep hq).imp_right ?_
    rintro ⟨rfl, hdone⟩
    exact ⟨(Batch.outcomes_dispatches hdone).trans (hsafe.intact.plans hq),
      records_step hsafe.capped hpass hq hdone hstep⟩
  leaves := fun hrun hq hdone => exists_step_of_isDone (hs.run hrun).intact hq hdone
  ends := fun {labels s} hrun hholds => by
    have hsafe := hs.run hrun
    have hheld := (hsafe.intact.locked.holds p i).1 hholds
    cases h hrun with
    | entering hp _ hfree _ _ =>
      rw [State.stageAt_of_proc hp, Option.bind_some, hfree] at hheld
      cases hheld
    | draining _ _ _ _ _ hdrain => exact hdrain.exists_deleted hsafe.intact hsafe.capped
  answered := fun hrun hanswer => (h hrun).answered hanswer
  absent := fun hrun hget => founded_of_listed hnone hrun hget

end

/-- **Deletions are final.** -/
theorem deletion_final {s₀ s₁ s₂ : State} (h₀ : s₀.Fresh) {before : List Label}
    (hrun : run s₀ before = some s₁) {id : String} {i : SlotId} (hget : s₁.index.get? id = some i)
    (hdelete : step s₁ (.delete id) = some s₂) : Final s₂ s₁.procs.size id i := by
  have hintact := h₀.intact.run hrun
  have hrun₂ := run_concat hrun hdelete
  have hs₂ : s₂ =
      (({ s₁ with index := s₁.index.erase id } : State).spawn (.delete id) (.flag i)).1 := by
    rw [← Option.some.inj hdelete, State.delete, hget]
  have hunlisted : Unlisted i s₂ := by
    refine ⟨hintact.step hdelete, h₀.capped.run hrun₂, ?_, ?_, ?_⟩
    · exact Tracks.run (h₀.tracks _ _) (fun _ s l _ => upkeep_distinct s l) hrun₂
    · exact Nat.lt_of_lt_of_le (hintact.bound hget) (length_step hdelete)
    · -- the slot was listed under no other id
      rintro ⟨id', hget'⟩
      rw [hs₂] at hget'
      have herase : (s₁.index.erase id).get? id' = some i := hget'
      rw [SortedMap.get?_erase] at herase
      split at herase
      · cases herase
      · next hne => exact hne (hintact.injective herase hget)
  have hproc : s₂.procs[s₁.procs.size]? = some ⟨.delete id, .flag i⟩ := by
    rw [hs₂, State.procs_spawn, if_pos rfl]
  have hbegin : Deleting s₂ s₁.procs.size id i [] s₂ :=
    .entering hproc rfl rfl (.inl rfl) fun _ => rfl
  refine final_of_deleting (fun hrest => hbegin.run hunlisted hrest) hunlisted ?_
  rw [hs₂]
  exact (SortedMap.get?_erase ..).trans (if_pos rfl)

/-- The first call of a deployment is in flight. -/
def callInFlight : List Label :=
  [.change (.setLatency "n" 100),
    .submit { deploymentId := some "a", container := { image := "web" }, scale := 1 } "b"] ++
  List.replicate 4 (.advance 0) ++ [.startCall 0 0]

/-- A deletion waits for the call, and then fails to remove the instance. -/
def failedDrain : List Label :=
  [.advance 1, .advance 1, .elapse 100, .settleCall 0 0, .advance 0, .change (.fail "n"),
    .advance 1, .advance 1, .startCall 1 0, .elapse 200, .settleCall 1 0, .advance 1]

theorem deletion_final_failedDrain :
    oneNode.Fresh ∧ ∃ s₁ s₂ s final, run oneNode callInFlight = some s₁ ∧
      s₁.index.get? "a" = some 0 ∧ step s₁ (.delete "a") = some s₂ ∧ Final s₂ 1 "a" 0 ∧
      run s₂ failedDrain = some s ∧ s.answer? 1 = some (.deleted final) ∧
      final.instances.length = 1 ∧ final.state = .degraded := by
  have hbefore : (run oneNode callInFlight).any fun s =>
      s.index.get? "a" == some 0 && s.procs.size == 1 := by decide +kernel
  have hafter : ((run oneNode callInFlight).bind fun s =>
      (step s (.delete "a")).bind (run · failedDrain)).any fun s =>
        (s.answer? 1).any fun
          | .deleted final => final.instances.length == 1 && final.state == .degraded
          | .accepted _ | .reported _ | .failed _ | .aborted => false := by decide +kernel
  obtain ⟨s₁, hrun, hs₁⟩ := (Option.any_eq_true ..).1 hbefore
  rw [Bool.and_eq_true, beq_iff_eq, beq_iff_eq] at hs₁
  obtain ⟨s, hs, hanswer⟩ := (Option.any_eq_true ..).1 hafter
  rw [hrun, Option.bind_some] at hs
  obtain ⟨s₂, hdelete, hrest⟩ := Option.bind_eq_some_iff.1 hs
  have hpromise := deletion_final fresh_oneNode hrun hs₁.1 hdelete
  rw [hs₁.2] at hpromise
  obtain ⟨answer, hfinal, hleft⟩ := (Option.any_eq_true ..).1 hanswer
  cases answer with
  | deleted final =>
    rw [Bool.and_eq_true, beq_iff_eq, beq_iff_eq] at hleft
    exact ⟨fresh_oneNode, s₁, s₂, s, final, hrun, hs₁.1, hdelete, hpromise, hrest, hfinal, hleft⟩
  | _ => cases hleft

end Control

end FleetControl
