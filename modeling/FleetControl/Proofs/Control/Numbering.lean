import FleetControl.Proofs.Control.Coherence
import FleetControl.Proofs.Control.Slots
import FleetControl.Proofs.Pass.Numbering

/-!
# Instances are told apart

Records and passes are numbered (`Deployment.Numbered`, `Pass.Numbered`) in every state of every run.
`Control.given` lists the sequence numbers that the passes on a slot have given, in the order in
which their plans got under way: they are 1, 2, 3 and so on, so that none is given twice
(`Control.Numbering`). What carries this along a run is that the next number of the record, or of the
pass under way on the slot, is the one after the last that was given.

A number and a listed id make up the id of an instance in one way only, so that all instances of
the listed deployments are told apart (`Control.instances_told_apart`).
-/

namespace FleetControl

/-- The plan that is to be carried out next. -/
def Progress.plan? : Progress → Option (List Dispatch)
  | .dispatching pass => some pass.plan
  | .finished _ _ => none

namespace Control

/-! ### Numbers that are given -/

/-- The plan on the slot that gets under way by the step. -/
def State.plan? (s : State) (i : SlotId) (l : Label) : Option (List Dispatch) :=
  ((s.progress? i l).bind Progress.plan?).filter fun plan =>
    (s.batchOf plan).permits ≤ Batch.maxPermits

/-- The sequence numbers that the plans on the slot have given to creations. -/
def given (i : SlotId) (s₀ : State) (labels : List Label) : List Nat :=
  (gather (·.plan? i) s₀ labels).flatten.filterMap Dispatch.seq?

section

variable {s₀ s s' s₁ : State} {labels : List Label} {l : Label} {p : ProcId} {errand : Errand}
  {i : SlotId} {d : Deployment} {pass : Pass} {numbers : List Nat}

theorem given_append (h : run s₀ labels = some s) (i : SlotId) (l : Label) :
    given i s₀ (labels ++ [l]) =
      given i s₀ labels ++ (s.plan? i l).toList.flatten.filterMap Dispatch.seq? := by
  rw [given, gather_concat _ h, List.flatten_append, List.filterMap_append, given]

theorem plan?_of_quiet (h : s.progress? i l = none) : s.plan? i l = none := by
  rw [State.plan?, h]
  rfl

theorem plan?_dispatching (hturn : Turn s p errand i s₁ (.dispatching pass))
    (hpass : errand.IsPass) : s.plan? i (.advance p) =
      if (s.batchOf pass.plan).permits ≤ Batch.maxPermits then some pass.plan else none := by
  rw [State.plan?, progress?_turned hturn hpass, Option.bind_some, Progress.plan?, Option.filter]
  simp only [decide_eq_true_eq]

/-- A step keeps records and passes numbered. -/
theorem upkeep_numbered (s : State) (l : Label) :
    Upkeep s l (fun _ d => d.Numbered) (fun _ d => d.Numbered) (fun _ _ _ p₀ => p₀.Numbered)
      (fun _ _ _ p₀ => p₀.Numbered) := by
  constructor
  case record_mono => exact fun hd => hd
  case pass_mono => exact fun hp => hp
  case founded => exact fun _ _ => Deployment.numbered_new ..
  case revised => exact fun _ _ _ hd => hd.of_eq rfl rfl rfl
  case begun => exact fun hd => hd.begun
  case unplaced =>
    intro i d work e hd hstart
    obtain ⟨hcopy, hinst, hseq⟩ := Pass.start_failed hstart
    refine Deployment.Numbered.absorb (hd.begun.of_sublist hcopy.id ?_ (Nat.le_of_eq hseq.symm)) _
    exact hinst ▸ Pass.dropLost_sublist ..
  case opened => exact fun _ _ _ _ hd hstart => Pass.numbered_start hd.begun hstart
  case drained => exact fun _ _ _ hd => Pass.numbered_of_removals hd rfl
  case finished =>
    exact fun _ hb hcourse _ hend _ => (Pass.numbered_finished (hcourse.numbered hb) hend).absorb _

/-- The numbers given on a slot are 1, 2, 3 and so on. The next is that of the pass under way on the
slot, whose plan gave the last of them, or else that of the record. -/
structure Numbering (numbers : List Nat) (s : State) (i : SlotId) (d : Deployment) : Prop where
  consecutive : numbers = List.range' 1 numbers.length
  rest : (∀ q pass, ¬ s.Carries q i pass) → d.nextSeq = 1 + numbers.length
  flight : ∀ {q pass}, s.Carries q i pass →
    ∃ before, numbers = before ++ pass.plan.filterMap Dispatch.seq? ∧
      pass.work.nextSeq = 1 + numbers.length

/-- The plan that gets under way gives the numbers that come next. -/
theorem Numbering.turned (h : Numbering numbers s i d) (hI : Intact s)
    (hd : s.recordAt i = some d) (hturn : Turn s p errand i s₁ (.dispatching pass))
    (hpass : errand.IsPass) : ∃ count, pass.Gives (1 + numbers.length) count := by
  generalize hprogress : Progress.dispatching pass = progress at hturn
  cases hturn with
  | @opened _ _ sl p₀ selector hproc _ hslot hstart =>
    cases (State.recordAt_of_slot hslot).symm.trans hd
    obtain ⟨count, hgives⟩ := Pass.gives_start hstart
    rw [Deployment.begun_nextSeq, h.rest (not_carries_of_admitted hI.locked hproc)] at hgives
    exact ⟨count, hgives.launch hprogress.symm⟩
  | @drained id _ _ _ _ => exact absurd rfl (hpass id)
  | @concluded _ _ sl p₀ batch hproc _ _ hdone =>
    have houtcomes := (Batch.outcomes_dispatches hdone).trans (hI.plans hproc)
    obtain ⟨_, -, hnext⟩ := h.flight ⟨errand, batch, hpass, hproc⟩
    exact ⟨0, hnext ▸ Pass.gives_conclude houtcomes hprogress.symm⟩

/-- The record that takes a pass back has the next number. -/
theorem Numbering.finished (h : Numbering numbers s i d) (hI : Intact s)
    (hd : s.recordAt i = some d) {work : Deployment} {report : Report}
    (hturn : Turn s p errand i s₁ (.finished work report)) (hpass : errand.IsPass) :
    work.nextSeq = 1 + numbers.length := by
  generalize hprogress : Progress.finished work report = progress at hturn
  cases hturn with
  | @opened _ _ sl p₀ selector hproc _ hslot hstart =>
    cases (State.recordAt_of_slot hslot).symm.trans hd
    obtain ⟨count, hgives⟩ := Pass.gives_start hstart
    rw [Deployment.begun_nextSeq, h.rest (not_carries_of_admitted hI.locked hproc)] at hgives
    obtain ⟨hempty, hproceed⟩ := Pass.Course.launch_finished hprogress.symm
    have hcount := congrArg List.length hgives.plan
    rw [hempty, List.length_range'] at hcount
    rw [(Pass.finished_eq hproceed).2.2, hgives.nextSeq, ← hcount]
    rfl
  | @drained id _ _ _ _ => exact absurd rfl (hpass id)
  | @concluded _ _ sl p₀ batch hproc _ _ hdone =>
    have houtcomes := (Batch.outcomes_dispatches hdone).trans (hI.plans hproc)
    obtain ⟨_, -, hnext⟩ := h.flight ⟨errand, batch, hpass, hproc⟩
    obtain ⟨q, hcourse, -, hproceed⟩ :=
      Pass.Course.opened.conclude_finished houtcomes hprogress.symm
    rw [(Pass.finished_eq hproceed).2.2, hcourse.nextSeq, hnext]

theorem Turn.batchOf {progress : Progress} (hturn : Turn s p errand i s₁ progress) :
    s₁.batchOf = s.batchOf := by
  funext plan
  rw [State.batchOf, hturn.sameWorld.settings, State.batchOf]

/-- A pass that cannot make its calls has just begun. -/
theorem Numbering.aborted (h : Numbering numbers s i d) (hl : Locked s) (hcapped : Capped s)
    (hturn : Turn s p errand i s₁ (.dispatching pass))
    (hlt : Batch.maxPermits < (s₁.batchOf pass.plan).permits) (hpass : errand.IsPass) :
    d.nextSeq = 1 + numbers.length := by
  rw [hturn.batchOf] at hlt
  generalize Progress.dispatching pass = progress at hturn
  cases hturn with
  | opened hproc _ _ _ => exact h.rest (not_carries_of_admitted hl hproc)
  | @drained id _ _ _ _ => exact absurd rfl (hpass id)
  | concluded hproc _ _ _ => exact absurd (hcapped.permits_le hproc pass.plan) (Nat.not_le.2 hlt)

/-- What begins to be published with a pass has the next number of the record. -/
theorem Turn.nextSeq {progress : Progress} {d₁ : Deployment} (hturn : Turn s p errand i s₁ progress)
    (hd : s.recordAt i = some d) (hd₁ : s₁.recordAt i = some d₁) : d₁.nextSeq = d.nextSeq := by
  rcases hturn.recordAt hd with hsame | hbegun
  · cases hsame.symm.trans hd₁
    rfl
  · cases hbegun.symm.trans hd₁
    exact d.begun_nextSeq

/-- **A step gives the numbers that come next.** -/
theorem Numbering.step (h : Numbering numbers s i d) (hI : Intact s) (hcapped : Capped s)
    (hstep : Control.step s l = some s') (hd : s.recordAt i = some d) {d' : Deployment}
    (hd' : s'.recordAt i = some d') :
    Numbering (numbers ++ (s.plan? i l).toList.flatten.filterMap Dispatch.seq?) s' i d' := by
  -- most steps give no number
  have quiet : s.plan? i l = none → Numbering numbers s' i d' →
      Numbering (numbers ++ (s.plan? i l).toList.flatten.filterMap Dispatch.seq?) s' i d' := by
    intro hplan h'
    rw [hplan]
    exact (List.append_nil numbers).symm ▸ h'
  have keep : d'.nextSeq = d.nextSeq → (∀ q pass, s'.Carries q i pass ↔ s.Carries q i pass) →
      Numbering numbers s' i d' := fun hseq hcarries =>
    ⟨h.consecutive,
      fun hidle => hseq.trans (h.rest fun q pass => mt (hcarries q pass).2 (hidle q pass)),
      fun hq => h.flight ((hcarries ..).1 hq)⟩
  cases slotStep_of_step hI hstep hd with
  | kept hquiet hrecord hcarries =>
    cases hrecord.symm.trans hd'
    exact quiet (plan?_of_quiet hquiet) (keep rfl hcarries)
  | revised hl hrecord hcarries =>
    cases hrecord.symm.trans hd'
    exact quiet (plan?_of_quiet (hl ▸ rfl)) (keep rfl hcarries)
  | unplaced hquiet hbefore hstart hrecord hafter =>
    cases hrecord.symm.trans hd'
    have hseq := (Pass.start_failed hstart).2.2.trans d.begun_nextSeq
    exact quiet (plan?_of_quiet hquiet)
      ⟨h.consecutive, fun _ => hseq.trans (h.rest hbefore), fun hq => absurd hq (hafter _ _)⟩
  | @dispatched p errand s₁ pass hl hpass hturn hle hrecord hcarries =>
    subst hl
    rw [hturn.batchOf] at hle
    obtain ⟨count, hgives⟩ := h.turned hI hd hturn hpass
    have hnumbers : (s.plan? i (.advance p)).toList.flatten.filterMap Dispatch.seq? =
        pass.plan.filterMap Dispatch.seq? := by
      rw [plan?_dispatching hturn hpass, if_pos hle]
      simp
    have hlength : (numbers ++ pass.plan.filterMap Dispatch.seq?).length =
        numbers.length + count := by
      rw [hgives.plan, List.length_append, List.length_range']
    rw [hnumbers]
    refine ⟨?_, fun hidle => absurd ((hcarries p pass).2 ⟨rfl, rfl⟩) (hidle p pass), ?_⟩
    · rw [hlength, ← List.range'_append_1, ← h.consecutive, hgives.plan]
    · intro q pass' hq
      obtain ⟨rfl, rfl⟩ := (hcarries q pass').1 hq
      exact ⟨numbers, rfl, by rw [hlength, hgives.nextSeq, Nat.add_assoc]⟩
  | @aborted p errand s₁ pass hl hpass hturn hlt hrecord hafter =>
    subst hl
    have hnone : s.plan? i (.advance p) = none := by
      rw [plan?_dispatching hturn hpass, if_neg (Nat.not_le.2 (hturn.batchOf ▸ hlt))]
    have hseq := hturn.nextSeq hd (hrecord.symm.trans hd')
    refine quiet hnone ⟨h.consecutive, fun _ => ?_, fun hq => absurd hq (hafter _ _)⟩
    exact hseq.trans (h.aborted hI.locked hcapped hturn hlt hpass)
  | @finished p errand s₁ work report hl hpass hturn hrecord hafter =>
    subst hl
    have hnone : s.plan? i (.advance p) = none := by
      rw [State.plan?, progress?_turned hturn hpass]
      rfl
    refine quiet hnone ⟨h.consecutive, fun _ => ?_, fun hq => absurd hq (hafter _ _)⟩
    rw [hrecord] at hd'
    obtain ⟨d₁, -, rfl⟩ := Option.map_eq_some_iff.1 hd'
    rw [Deployment.absorb_nextSeq, h.finished hI hd hturn hpass]

theorem plan?_of_recordAt (hnone : s.recordAt i = none) (l : Label) : s.plan? i l = none := by
  have hslot : s.slots[i]? = none := Option.map_eq_none_iff.1 hnone
  refine plan?_of_quiet (Option.eq_none_iff_forall_ne_some.2 fun progress hprogress => ?_)
  obtain ⟨p, errand, s₁, rfl, -, hturn⟩ := progress?_eq_some_iff.1 hprogress
  cases hturn with
  | opened _ _ hslot' _ => cases hslot.symm.trans hslot'
  | drained _ hslot' => cases hslot.symm.trans hslot'
  | concluded _ hslot' _ _ => cases hslot.symm.trans hslot'

/-- Nobody has a pass under way on a slot that a request founds. -/
theorem not_carries_founded (hI : Intact s) {request : Request} {fresh : String}
    (hstep : Control.step s (.submit request fresh) = some s') (hnone : s.recordAt i = none)
    (q : ProcId) : ¬ s'.Carries q i pass := by
  -- whoever has one under way had it before
  suffices s'.Carries q i pass → s.Carries q i pass by
    intro hq
    obtain ⟨errand, batch, -, hworking⟩ := this hq
    have hplaced := List.getElem?_eq_getElem (hI.locked.placed_proc hworking rfl)
    cases hnone.symm.trans (State.recordAt_of_slot hplaced)
  cases moves_of_step hstep with
  | refused e _ => exact (carries_spawn _ rfl q pass).1
  | revised _ _ => exact (carries_spawn _ rfl q pass).1
  | founded _ _ => exact (carries_spawn _ rfl q pass).1
  | called _ hcall => rcases hcall with ⟨⟨⟩, -⟩ | ⟨⟨⟩, -⟩

/-- **The numbers given on a slot are 1, 2, 3 and so on.** -/
theorem numbering_run (h₀ : s₀.Fresh) (hrun : run s₀ labels = some s) :
    (∀ i, s.recordAt i = none → given i s₀ labels = []) ∧
      ∀ i d, s.recordAt i = some d → Numbering (given i s₀ labels) s i d := by
  refine run_induction (P := fun labels s =>
    (∀ i, s.recordAt i = none → given i s₀ labels = []) ∧
    ∀ i d, s.recordAt i = some d → Numbering (given i s₀ labels) s i d) ?_ ?_ hrun
  · refine ⟨fun _ _ => rfl, fun i d hd => ?_⟩
    rw [State.recordAt, h₀.slots] at hd
    cases hd
  · rintro labels s l s' hrun ⟨hnew, h⟩ hstep
    have hI := h₀.intact.run hrun
    refine ⟨fun i hnone => ?_, fun i d hd => ?_⟩
    · have hbefore := recordAt_before hstep hnone
      rw [given_append hrun, hnew i hbefore, plan?_of_recordAt hbefore]
      rfl
    · rw [given_append hrun]
      cases hbefore : s.recordAt i with
      | none =>
        obtain ⟨request, fresh, rfl, rfl⟩ := recordAt_new hstep hbefore hd
        rw [hnew i hbefore, plan?_of_recordAt hbefore]
        exact ⟨rfl, fun _ => rfl, fun hq => absurd hq (not_carries_founded hI hstep hbefore _)⟩
      | some d₀ => exact (h i d₀ hbefore).step hI (h₀.capped.run hrun) hstep hbefore hd

/-! ### Ids of instances -/

/-- The ids of the instances are distinct. -/
theorem nodup_ids (h : d.Numbered) : (d.instances.map (·.id)).Nodup := by
  have hids : d.instances.map (·.id) = d.seqs.map d.instanceId := by
    rw [Deployment.seqs, List.map_map]
    exact List.map_congr_left h.named
  rw [hids]
  have hnodup : d.seqs.Nodup := h.ascending.imp Nat.ne_of_lt
  exact hnodup.map d.instanceId_injective

/-- The instances of a record have other ids than those of a record with another id. -/
theorem disjoint_ids {d' : Deployment} (h : d.Numbered) (h' : d'.Numbered) (hne : d.id ≠ d'.id) :
    (d.instances.map (·.id)).Disjoint (d'.instances.map (·.id)) := by
  intro id hid hid'
  obtain ⟨j, hj, rfl⟩ := List.mem_map.1 hid
  obtain ⟨j', hj', heq⟩ := List.mem_map.1 hid'
  rw [h.named j hj, h'.named j' hj', Deployment.instanceId_eq_iff] at heq
  exact hne heq.1.symm

/-- The instances of all listed deployments have distinct ids. -/
theorem nodup_records (hrecords : ∀ {id d}, s.record? id = some d → d.id = id ∧ d.Numbered) :
    ((s.records.flatMap (·.instances)).map (·.id)).Nodup := by
  rw [List.map_flatMap, List.nodup_flatMap]
  constructor
  · intro d hd
    obtain ⟨id, -, hrecord⟩ := List.mem_filterMap.1 hd
    exact nodup_ids (hrecords hrecord).2
  · rw [State.records, List.pairwise_filterMap]
    refine s.index.nodup_keys.imp fun {id id'} hne d hd d' hd' => ?_
    obtain ⟨rfl, hnumbered⟩ := hrecords hd
    obtain ⟨rfl, hnumbered'⟩ := hrecords hd'
    exact disjoint_ids hnumbered hnumbered' hne

/-- Instances stand in the order of their numbers and bear the ids that go with them, the numbers
given on a slot are 1, 2, 3 and so on, of which those of the creations under way are the last, and
the ids of all instances of listed deployments are distinct. -/
structure ToldApart (s₀ : State) (labels : List Label) (s : State) : Prop where
  numbered : ∀ {i d}, s.recordAt i = some d → d.Numbered
  consecutive : ∀ i, given i s₀ labels = List.range' 1 (given i s₀ labels).length
  planned : ∀ {p errand i pass batch}, s.IsWorking p errand i pass batch → errand.IsPass →
    batch.dispatches.filterMap Dispatch.seq? <:+ given i s₀ labels
  ids : ((s.records.flatMap (·.instances)).map (·.id)).Nodup

/-- **Instances are told apart**, whatever the order of calls and passes, and whatever fails, is
given up or is cancelled. -/
theorem instances_told_apart (h₀ : s₀.Fresh) (hrun : run s₀ labels = some s) :
    ToldApart s₀ labels s := by
  have htracks := Tracks.run (h₀.tracks _ _) (fun _ s l _ => upkeep_numbered s l) hrun
  have hI := h₀.intact.run hrun
  obtain ⟨hnew, hnumbering⟩ := numbering_run h₀ hrun
  refine ⟨fun hd => htracks.record hd, fun i => ?_, fun {p errand i pass batch} hp hpass => ?_,
    nodup_records fun {id d} hd => ?_⟩
  · cases hd : s.recordAt i with
    | none =>
      rw [hnew i hd]
      rfl
    | some d => exact (hnumbering i d hd).consecutive
  · obtain ⟨d, hd⟩ := State.exists_recordAt (hI.locked.placed_proc hp rfl)
    obtain ⟨before, hgiven, -⟩ := (hnumbering i d hd).flight ⟨errand, batch, hpass, hp⟩
    rw [hI.plans hp, hgiven]
    exact List.suffix_append ..
  · obtain ⟨i, hget, hd⟩ := Option.bind_eq_some_iff.1 hd
    obtain ⟨sl, hslot, heq⟩ := Option.bind_eq_some_iff.1 hd
    cases heq
    obtain ⟨d, hd, hid⟩ := named_of_listed h₀ hrun hget
    cases (State.recordAt_of_slot hslot).symm.trans hd
    exact ⟨hid, htracks.record hd⟩

end

/-- The first creation of a deployment fails, and the second does not. -/
def secondTry : List Label :=
  [.change (.fail "n"), .submit { container := { image := "web" }, scale := 1 } "a"] ++
  List.replicate 4 (.advance 0) ++ [.startCall 0 0, .advance 0, .change (.recover "n"), .trigger "a"] ++
  List.replicate 4 (.advance 1) ++ [.startCall 1 0, .advance 1]

theorem instances_told_apart_secondTry : oneNode.Fresh ∧ given 0 oneNode secondTry = [1, 2] ∧
    ∃ s, run oneNode secondTry = some s ∧ ToldApart oneNode secondTry s ∧
      (s.records.flatMap (·.instances)).map (·.id) = ["a-2"] := by
  have hgiven : given 0 oneNode secondTry = [1, 2] := by decide +kernel
  have hend : (run oneNode secondTry).any fun s =>
      (s.records.flatMap (·.instances)).map (·.id) == ["a-2"] := by decide +kernel
  obtain ⟨s, hrun, hs⟩ := (Option.any_eq_true ..).1 hend
  exact ⟨fresh_oneNode, hgiven, s, hrun, instances_told_apart fresh_oneNode hrun, beq_iff_eq.1 hs⟩

end Control

end FleetControl
