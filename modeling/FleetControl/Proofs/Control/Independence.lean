import FleetControl.Proofs.Control.Standing

/-!
# Deployments are independent

Passes share the engine, the registry, the tree and the selector. Under a policy that draws nothing
no pass reads there what another writes, so that the pass of a deployment comes to what it comes to
when it is triggered alone (`State.AsAlone`), but for the handles of containers and what the clocks
show. How the passes are started and how they overlap makes no difference
(`Control.passes_independent`).

A sweep leaves out the passes that are given up because their plans have more permits than can be
counted (`Control.sweep_incomplete`).
-/

namespace FleetControl

namespace Control

/-! ### One pass alone -/

/-- What a pass comes to that is triggered in the state, with no other: the record and the report. -/
def State.ComesTo (s : State) (id : String) (d : Deployment) (report : Report) : Prop :=
  ∃ labels s', (∀ l ∈ labels, l.isInner) ∧ run (s.trigger id).1 labels = some s' ∧ s'.Over ∧
    s'.record? id = some d ∧ s'.answer? s.procs.size = some (.reported report)

/-- The record and the report are those of a pass that is triggered alone, but for handles and clocks.
-/
structure State.AsAlone (s : State) (id : String) (d : Deployment) (report : Report) : Prop where
  exists_alone : ∃ d' report', s.ComesTo id d' report'
  bare_eq : ∀ d' report', s.ComesTo id d' report' →
    d.bare = d'.bare ∧ report.bare = report'.bare

/-- Passes of different deployments do not depend on each other, when nothing else is going on. -/
structure Independent (s : State) : Prop where
  /-- A sweep has one pass for each deployment that is listed, by ascending id. -/
  order : s.sweep.2.map (·.1) = s.index.keys ∧ s.index.keys.Pairwise (compare · · = .lt)
  /-- However passes are started and overlap, they come to an end. -/
  ends : ∀ labels s', (∀ l ∈ labels, l.isPassing) → run s labels = some s' →
    ¬ Diverges s' ∧ ∃ more s'', (∀ l ∈ more, l.isInner) ∧ run s' more = some s'' ∧ s''.Over
  /-- A sweep gives a report for each deployment, and leaves its record, as a pass alone does. -/
  swept : ∀ labels s', (∀ l ∈ labels, l.isInner) → run s.sweep.1 labels = some s' → s'.Over →
    ∃ results, s'.results? s.sweep.2 = some results ∧ results.map (·.1) = s.index.keys ∧
      ∀ id answer, (id, answer) ∈ results → ∃ d report, answer = .reported report ∧
        s'.record? id = some d ∧ s.AsAlone id d report
  /-- So does the one pass of a deployment among any others. -/
  started : ∀ labels s', (∀ l ∈ labels, l.isPassing) → run s labels = some s' → s'.Over →
    ∀ id ∈ s.index.keys, passes id labels = 1 → ∃ p d report, Sole s' s.procs.size p id ∧
      s'.answer? p = some (.reported report) ∧ s'.record? id = some d ∧ s.AsAlone id d report
  /-- Runs with the same passes, at most one for a deployment, leave the same records. -/
  records : ∀ labels labels' s₁ s₂, (∀ l ∈ labels, l.isPassing) → (∀ l ∈ labels', l.isPassing) →
    (∀ id ∈ s.index.keys, passes id labels ≤ 1 ∧ passes id labels' = passes id labels) →
    run s labels = some s₁ → run s labels' = some s₂ → s₁.Over → s₂.Over →
    s₁.records.map Deployment.bare = s₂.records.map Deployment.bare

section

variable {s₀ s s' s₁ s₂ : State} {l : Label} {p q : ProcId} {n : Nat} {id : String} {i : SlotId}
  {d work : Deployment} {report : Report} {labels labels' : List Label}

/-! ### Where passes end -/

/-- A pass that is started and over has come to the end of its course. -/
theorem Standing.finished (h : Standing s id i d s' 1) (hover : s'.Over) :
    ∃ p work report, Sole s' s.procs.size p id ∧ s'.answer? p = some (.reported report) ∧
      s'.recordAt i = some work ∧ s.Leads d (.finished work report) := by
  cases h with
  | ahead _ hp hrank _ =>
    obtain ⟨answer, rfl⟩ := hover.ended hp
    exact absurd hrank (Nat.not_lt_zero 2)
  | working _ hp _ _ _ _ =>
    obtain ⟨answer, ⟨⟩⟩ := hover.ended hp
  | ended hsole hanswer hrecord hleads => exact ⟨_, _, _, hsole, hanswer, hrecord, hleads⟩

theorem Standing.untouched (h : Standing s id i d s' 0) : s'.recordAt i = some d := by
  cases h with
  | idle _ hrecord => exact hrecord

theorem State.AtRest.exists_record (hs : s.AtRest) (hget : s.index.get? id = some i) :
    ∃ d, s.recordAt i = some d :=
  State.exists_recordAt (hs.reliable.lively.intact.bound hget)

theorem State.Serves.run (h : s.Serves n q id) (hI : Intact s)
    (hrun : Control.run s labels = some s') : s'.Serves n q id :=
  run_induction (P := fun _ s' => s'.Serves n q id) h
    (fun _ _ _ _ hrun hs hstep => hs.step (hI.run hrun).locked hstep) hrun

theorem passes_cons_inner (hinner : ∀ l ∈ labels, l.isInner) (id : String) (l : Label) :
    passes id (l :: labels) = l.passes id := by
  have hzero : labels.map (Label.passes id) = labels.map fun _ => 0 :=
    List.map_congr_left fun l hl => Label.passes_of_isInner (hinner l hl) id
  rw [passes, List.map_cons, List.sum_cons, hzero]
  simp

/-- Clients ask for one pass of a deployment, and inner steps follow until all is over. -/
theorem finished_of_start (hs : s.AtRest) (hget : s.index.get? id = some i)
    (hd : s.recordAt i = some d) (hl : l.isPassing) (hpasses : l.passes id = 1)
    (hstep : step s l = some s₁) (hq : s₁.Serves s.procs.size q id)
    (hinner : ∀ l ∈ labels, l.isInner) (hrun : run s₁ labels = some s') (hover : s'.Over) :
    ∃ work report, s'.answer? q = some (.reported report) ∧ s'.record? id = some work ∧
      s.Leads d (.finished work report) := by
  have hrun' : run s (l :: labels) = some s' := by
    rw [run_cons, hstep, Option.bind_some, hrun]
  have hpassing : ∀ l' ∈ l :: labels, l'.isPassing := by
    rintro l' (_ | ⟨_, hmem⟩)
    · exact hl
    · exact Label.isPassing_of_isInner (hinner l' hmem)
  have hcount := (passes_cons_inner hinner id l).trans hpasses
  have hst := standing_run hs hget hd hpassing (Nat.le_of_eq hcount) hrun'
  rw [hcount] at hst
  obtain ⟨p, work, report, hsole, hanswer, hrecord, hleads⟩ := hst.finished hover
  obtain rfl := hsole.unique (hq.run (hs.reliable.lively.intact.step hstep) hrun)
  have hget' := (along_run hs hpassing hrun').get? hget
  exact ⟨work, report, hanswer, (State.record?_of_get? hget').trans hrecord, hleads⟩

theorem serves_trigger (s : State) (id : String) :
    (s.trigger id).1.Serves s.procs.size s.procs.size id := by
  refine ⟨Nat.le_refl _, .trigger id, .lookup id, ?_, .inl rfl⟩
  rw [State.trigger, State.procs_spawn, if_pos rfl]

theorem serves_sweep (h : (id, q) ∈ s.sweep.2) : s.sweep.1.Serves s.procs.size q id := by
  obtain ⟨hle, i, -, hq⟩ := State.proc_of_sweep h
  exact ⟨hle, _, _, hq, .inr rfl⟩

/-- **The end of the course is that of a pass alone.** -/
theorem State.Leads.asAlone (h : s.Leads d (.finished work report)) (hs : s.AtRest)
    (hget : s.index.get? id = some i) (hd : s.recordAt i = some d) : s.AsAlone id work report := by
  have hstep : step s (.trigger id) = some (s.trigger id).1 := rfl
  have hpasses : Label.passes id (.trigger id) = 1 := if_pos rfl
  have hfinished : ∀ {labels s'}, (∀ l ∈ labels, l.isInner) →
      run (s.trigger id).1 labels = some s' → s'.Over → ∃ work' report',
        s'.answer? s.procs.size = some (.reported report') ∧ s'.record? id = some work' ∧
          s.Leads d (.finished work' report') := fun hinner hrun hover =>
    finished_of_start hs hget hd rfl hpasses hstep (serves_trigger s id) hinner hrun hover
  constructor
  · obtain ⟨labels, s', hinner, hrun, hover⟩ := exists_over (hs.reliable.step hstep).lively
    obtain ⟨work', report', hanswer, hrecord, -⟩ := hfinished hinner hrun hover
    exact ⟨work', report', labels, s', hinner, hrun, hover, hrecord, hanswer⟩
  · rintro work₁ report₁ ⟨labels, s', hinner, hrun, hover, hrecord, hanswer⟩
    obtain ⟨work', report', hanswer', hrecord', hleads'⟩ := hfinished hinner hrun hover
    cases hrecord.symm.trans hrecord'
    cases hanswer.symm.trans hanswer'
    exact h.unique hleads'

/-! ### Results of a sweep -/

/-- A sweep that is over gives the answers of its processes, unless one was aborted. -/
theorem State.results?_eq {started : List (String × ProcId)} {answer : ProcId → Answer}
    (hanswer : ∀ e ∈ started, s.answer? e.2 = some (answer e.2))
    (hfine : ∀ e ∈ started, answer e.2 ≠ .aborted) :
    s.results? started = some (started.map fun e => (e.1, answer e.2)) := by
  have hall : started.mapM (fun e => (s.answer? e.2).map (e.1, ·)) =
      some (started.map fun e => (e.1, answer e.2)) := by
    clear hfine
    induction started with
    | nil => rfl
    | cons e rest ih =>
      rw [List.mapM_cons, hanswer e List.mem_cons_self,
        ih fun e' he' => hanswer e' (List.mem_cons_of_mem _ he')]
      rfl
  unfold State.results?
  rw [hall]
  refine congrArg some (List.filter_eq_self.2 fun result hmem => ?_)
  obtain ⟨e, he, rfl⟩ := List.mem_map.1 hmem
  simpa using hfine e he

theorem swept_of_atRest (hs : s.AtRest) (hinner : ∀ l ∈ labels, l.isInner)
    (hrun : run s.sweep.1 labels = some s') (hover : s'.Over) :
    ∃ results, s'.results? s.sweep.2 = some results ∧ results.map (·.1) = s.index.keys ∧
      ∀ id answer, (id, answer) ∈ results → ∃ d report, answer = .reported report ∧
        s'.record? id = some d ∧ s.AsAlone id d report := by
  have hfinished : ∀ id q, (id, q) ∈ s.sweep.2 → ∃ d report,
      s'.answer? q = some (.reported report) ∧ s'.record? id = some d ∧ s.AsAlone id d report := by
    intro id q hmem
    obtain ⟨-, i, hget, -⟩ := State.proc_of_sweep hmem
    obtain ⟨d, hd⟩ := hs.exists_record hget
    have hstep : step s .sweep = some s.sweep.1 := rfl
    have hpasses : Label.passes id .sweep = 1 := rfl
    obtain ⟨work, report, hanswer, hrecord, hleads⟩ :=
      finished_of_start hs hget hd rfl hpasses hstep (serves_sweep hmem) hinner hrun hover
    exact ⟨work, report, hanswer, hrecord, hleads.asAlone hs hget hd⟩
  let answer : ProcId → Answer := fun q => (s'.answer? q).getD .aborted
  have hanswer : ∀ e ∈ s.sweep.2, ∃ report, s'.answer? e.2 = some (.reported report) ∧
      answer e.2 = .reported report := by
    intro e he
    obtain ⟨-, report, h, -⟩ := hfinished e.1 e.2 he
    exact ⟨report, h, by simp [answer, h]⟩
  have hresults : s'.results? s.sweep.2 = some (s.sweep.2.map fun e => (e.1, answer e.2)) := by
    refine State.results?_eq (fun e he => ?_) (fun e he => ?_)
    · obtain ⟨report, h, h'⟩ := hanswer e he
      rw [h, h']
    · obtain ⟨report, -, h'⟩ := hanswer e he
      simp [h']
  refine ⟨_, hresults, ?_, ?_⟩
  · rw [List.map_map, ← s.keys_sweep]
    rfl
  · intro id answer' hmem
    obtain ⟨⟨id', q⟩, he, heq⟩ := List.mem_map.1 hmem
    cases heq
    obtain ⟨d, report, h, hrecord, halone⟩ := hfinished _ q he
    exact ⟨d, report, by simp [answer, h], hrecord, halone⟩

/-! ### Records -/

/-- What is left of the record of a deployment depends on whether a pass was started. -/
theorem bare_record_eq (hs : s.AtRest) (hget : s.index.get? id = some i)
    (hl : ∀ l ∈ labels, l.isPassing) (hl' : ∀ l ∈ labels', l.isPassing)
    (hcount : passes id labels ≤ 1) (hsame : passes id labels' = passes id labels)
    (hrun : run s labels = some s₁) (hrun' : run s labels' = some s₂) (hover : s₁.Over)
    (hover' : s₂.Over) :
    (s₁.record? id).map Deployment.bare = (s₂.record? id).map Deployment.bare := by
  obtain ⟨d, hd⟩ := hs.exists_record hget
  have hst := standing_run hs hget hd hl hcount hrun
  have hst' := standing_run hs hget hd hl' (hsame ▸ hcount) hrun'
  rw [State.record?_of_get? ((along_run hs hl hrun).get? hget),
    State.record?_of_get? ((along_run hs hl' hrun').get? hget)]
  rw [hsame] at hst'
  rcases Nat.le_one_iff_eq_zero_or_eq_one.1 hcount with hzero | hone
  · rw [hzero] at hst hst'
    rw [hst.untouched, hst'.untouched]
  · rw [hone] at hst hst'
    obtain ⟨-, work, report, -, -, hrecord, hleads⟩ := hst.finished hover
    obtain ⟨-, work', report', -, -, hrecord', hleads'⟩ := hst'.finished hover'
    rw [hrecord, hrecord', Option.map_some, Option.map_some, (hleads.unique hleads').1]

theorem records_bare (hs : s.AtRest) (hl : ∀ l ∈ labels, l.isPassing)
    (hrun : run s labels = some s₁) : s₁.records.map Deployment.bare =
      s.index.keys.filterMap fun id => (s₁.record? id).map Deployment.bare := by
  rw [State.records, (along_run hs hl hrun).unmoved.index, List.map_filterMap]

/-! ### Independence -/

theorem State.AtRest.independent (hs : s.AtRest) : Independent s where
  order := ⟨s.keys_sweep, List.pairwise_map.2 s.index.ascending⟩
  ends := fun labels s' hl hrun => by
    have hlively := (along_run hs hl hrun).reliable.lively
    exact ⟨not_diverges hlively.intact, exists_over hlively⟩
  swept := fun labels s' => swept_of_atRest hs
  started := fun labels s' hl hrun hover id hid hone => by
    obtain ⟨i, hget⟩ := SortedMap.mem_keys.1 hid
    obtain ⟨d, hd⟩ := hs.exists_record hget
    have hst := standing_run hs hget hd hl (Nat.le_of_eq hone) hrun
    rw [hone] at hst
    obtain ⟨p, work, report, hsole, hanswer, hrecord, hleads⟩ := hst.finished hover
    have hget' := (along_run hs hl hrun).get? hget
    exact ⟨p, work, report, hsole, hanswer, (State.record?_of_get? hget').trans hrecord,
      hleads.asAlone hs hget hd⟩
  records := fun labels labels' s₁ s₂ hl hl' hcount hrun hrun' hover hover' => by
    rw [records_bare hs hl hrun, records_bare hs hl' hrun']
    refine List.filterMap_congr fun id hid => ?_
    obtain ⟨i, hget⟩ := SortedMap.mem_keys.1 hid
    obtain ⟨hle, hsame⟩ := hcount id hid
    exact bare_record_eq hs hget hl hl' hle hsame hrun hrun' hover hover'

/-- **Deployments are independent units.** In every state that a run leads to, under a policy that
draws nothing and with all calls over: a sweep gives one report for each deployment that is listed,
by ascending id; and in whatever order passes are started and however they overlap, each comes to
what it comes to alone, but for handles and clocks. -/
theorem passes_independent (h₀ : s₀.Fresh) (ht : s₀.tree.Sound)
    (hcap : s₀.settings.maxConcurrentDispatches.toNat ≤ Batch.maxPermits)
    (hrun : run s₀ labels = some s) (hover : s.Over) (hsteady : s.selector.policy.IsSteady) :
    Independent s :=
  State.AtRest.independent
    ⟨(h₀.reliable ht hcap).run hrun, h₀.unflagged.run h₀.intact hrun, hover, hsteady⟩

end

/-- The first passes of two deployments overlap and fail, and the node recovers. -/
def twoFailures : List Label :=
  [.change (.fail "n"),
    .submit { deploymentId := some "b", container := { image := "web" }, scale := 1 } "x",
    .submit { deploymentId := some "a", container := { image := "db" }, scale := 1 } "y"] ++
  List.replicate 4 (.advance 0) ++ List.replicate 4 (.advance 1) ++
  [.startCall 1 0, .startCall 0 0, .advance 0, .advance 1, .change (.recover "n")]

theorem passes_independent_twoFailures : oneNode.Fresh ∧ oneNode.tree.Sound ∧
    oneNode.settings.maxConcurrentDispatches.toNat ≤ Batch.maxPermits ∧
    ∃ s, run oneNode twoFailures = some s ∧ s.Over ∧ s.selector.policy.IsSteady ∧
      s.index.keys = ["a", "b"] ∧ s.records.map (·.state) = [.degraded, .degraded] ∧
      Independent s := by
  have ht : oneNode.tree.Sound := Region.Tree.sound_new
  have hcap : oneNode.settings.maxConcurrentDispatches.toNat ≤ Batch.maxPermits := by decide +kernel
  have hend : (run oneNode twoFailures).any fun s =>
      (List.range s.procs.size).all (fun q => (s.answer? q).isSome) &&
      s.selector.policy == .spread && s.index.keys == ["a", "b"] &&
      s.records.map (·.state) == [.degraded, .degraded] := by decide +kernel
  obtain ⟨s, hrun, hs⟩ := (Option.any_eq_true ..).1 hend
  simp only [Bool.and_eq_true, List.all_eq_true, List.mem_range, beq_iff_eq] at hs
  obtain ⟨⟨⟨hover, hpolicy⟩, hkeys⟩, hstates⟩ := hs
  have hsteady : s.selector.policy.IsSteady := .inl hpolicy
  exact ⟨fresh_oneNode, ht, hcap, s, hrun, hover, hsteady, hkeys, hstates,
    passes_independent fresh_oneNode ht hcap hrun hover hsteady⟩

/-- A sweep is over and gives no result for a deployment that is listed. -/
theorem sweep_incomplete : manyPermits.Fresh ∧ manyPermits.tree.Sound ∧
    ∃ s s', run manyPermits firstRequest = some s ∧ s.Over ∧ s.selector.policy.IsSteady ∧
      s.index.keys = ["a"] ∧ run s.sweep.1 [.advance 1, .advance 1] = some s' ∧ s'.Over ∧
      s'.results? s.sweep.2 = some [] := by
  have hend : (run manyPermits firstRequest).any fun s =>
      (List.range s.procs.size).all (fun q => (s.answer? q).isSome) &&
      s.selector.policy == .spread && s.index.keys == ["a"] &&
      (run s.sweep.1 [.advance 1, .advance 1]).any fun s' =>
        (List.range s'.procs.size).all (fun q => (s'.answer? q).isSome) &&
        s'.results? s.sweep.2 == some [] := by
    decide +kernel
  obtain ⟨s, hrun, hs⟩ := (Option.any_eq_true ..).1 hend
  simp only [Bool.and_eq_true, List.all_eq_true, List.mem_range, beq_iff_eq] at hs
  obtain ⟨⟨⟨hover, hpolicy⟩, hkeys⟩, hsweep⟩ := hs
  obtain ⟨s', hrun', hs'⟩ := (Option.any_eq_true ..).1 hsweep
  simp only [Bool.and_eq_true, List.all_eq_true, List.mem_range, beq_iff_eq] at hs'
  exact ⟨⟨rfl, rfl, rfl⟩, Region.Tree.sound_new, s, s', hrun, hover, .inl hpolicy, hkeys, hrun',
    hs'.1, hs'.2⟩

end Control

end FleetControl
