import FleetControl.Proofs.Control.Dispatching
import FleetControl.Proofs.Dispatch.Isolation
import FleetControl.Proofs.Pass.Effects

/-!
# One bad node does not affect the others

Calls of a batch share permits, the clock and the container engine, so a node that fails or takes its
time shifts when the calls on other nodes begin and end. What comes of them it does not change.
A process that holds a lock (`Control.State.MayDispatch`) takes up a plan, and the batch is carried
out (`Control.Carrying`).

* `Control.Resolved` : each dispatch of a batch that is over comes to what its own node does with it,
  and these outcomes are what becomes of the record;
* `Control.Contained` : two batches of one plan, on engines that agree on all nodes but one, come to
  the same on all nodes but that one, and do the same there to the record, up to handles and clocks.

With more permits than can be counted a plan is not carried out at all
(`Control.healthy_node_unserved`).
-/

namespace FleetControl

/-- Batches whose calls are owned and not cancelled come to what is foreseen. -/
theorem Batch.Owned.outcomes {b : Batch} {e : Engine} (h : b.Owned e) (hb : b.Uncancelled)
    (hdone : b.isDone) :
    b.outcomes.map Outcome.bare = b.dispatches.map fun x => ⟨x, e.verdict b.timeout x⟩ := by
  refine Foreseen.outcomes ⟨rfl, fun c hc => ?_⟩ hdone
  obtain ⟨k, hk⟩ := List.mem_iff_getElem?.1 hc
  exact h hk (hb.calls c hc)

namespace Control

/-- The process holds the lock of the slot, and permits can be counted. -/
structure State.MayDispatch (s : State) (p : ProcId) (errand : Errand) (i : SlotId) : Prop where
  intact : Intact s
  held : ∃ stage, s.procs[p]? = some ⟨errand, stage⟩ ∧ stage.held? = some i
  countable : s.settings.maxConcurrentDispatches.toNat ≤ Batch.maxPermits

/-- The process takes up the plan of a pass. -/
def State.takeUp (s : State) (p : ProcId) (errand : Errand) (i : SlotId) (pass : Pass) : State :=
  s.follow p errand i (.dispatching pass)

/-- What is promised of the outcomes of a plan that is carried out and not cancelled, and of what a
pass makes of them. -/
structure Resolved (e : Engine) (timeout wall : Nat) (pass : Pass) (outs : List Outcome) : Prop where
  /-- There is an outcome for each dispatch, in the order of the plan. -/
  dispatches : outs.map (·.dispatch) = pass.plan
  /-- It depends on the node of the dispatch, and on the time limit. -/
  judged : ∀ o ∈ outs, o.Judged e timeout
  /-- The record takes what each of them adds, takes away and notes. -/
  taken : (pass.foldAll wall outs).work = outs.foldl (Deployment.taking wall) pass.work
  /-- What is noted comes behind the failures that there were, and of all of them the log keeps the
  last. -/
  noted : ∀ noted, outs.filterMap (Outcome.noted? wall) = noted →
    (noted = [] → (pass.foldAll wall outs).work.errorLog = pass.work.errorLog) ∧
    (noted ≠ [] → (pass.foldAll wall outs).work.errorLog =
      (pass.work.errorLog ++ noted).rtake (max pass.work.errorLogCapacity 1))
  instances : pass.Sound → (pass.foldAll wall outs).work.instances =
    pass.work.instances.filter (· ∉ outs.filterMap Outcome.removed?) ++
      outs.filterMap (Outcome.added? pass.work wall)

/-- What two lists of outcomes of one plan have in common, apart from one node. -/
structure Contained (x : String) (wall wall' : Nat) (pass : Pass) (outs outs' : List Outcome) :
    Prop where
  dispatches : outs'.map (·.dispatch) = outs.map (·.dispatch)
  /-- In the places of the other nodes the outcomes are the same but for handles. -/
  outcomes : ∀ (k : Nat) (o o' : Outcome), outs[k]? = some o → outs'[k]? = some o' →
    o.dispatch.nodeId ≠ x → o.bare = o'.bare
  /-- What they add, take away and note is the same but for handles and clocks. -/
  effects : Outcome.SameEffects pass.work wall wall' (Outcome.off x outs) (Outcome.off x outs')

section

variable {s s' t t' : State} {labels labels' : List Label} {p p' : ProcId}
  {errand errand' : Errand} {i i' : SlotId} {pass : Pass} {b b' : Batch} {inTurn inTurn' : Prop}
  {x : String}

theorem State.MayDispatch.takeUp (h : s.MayDispatch p errand i) (pass : Pass) :
    s.takeUp p errand i pass = s.setStage p (.working i pass (s.batchOf pass.plan)) := by
  have hcountable : Countable s := h.countable
  exact if_neg (Nat.not_lt.2 (hcountable.permits_le _))

theorem State.MayDispatch.working (h : s.MayDispatch p errand i) (pass : Pass) :
    (s.takeUp p errand i pass).IsWorking p errand i pass
      ((s.takeUp p errand i pass).batchOf pass.plan) := by
  obtain ⟨stage, hproc, -⟩ := h.held
  rw [h.takeUp]
  exact State.procs_setStage_self hproc _

/-- Taking up a plan leaves the state intact. -/
theorem State.MayDispatch.intact_takeUp (h : s.MayDispatch p errand i) (pass : Pass) :
    Intact (s.takeUp p errand i pass) := by
  obtain ⟨stage, hproc, hheld⟩ := h.held
  have hslot := Stage.slot?_of_held hheld
  rw [h.takeUp]
  refine ⟨h.intact.locked.setStage (State.stageAt_of_proc hproc) ?_ hheld.symm ?_, h.intact.bound,
    h.intact.injective, fun {q errand' j pass' batch} hq => ?_⟩
  · rintro j ⟨⟩
    exact h.intact.locked.placed_proc hproc hslot
  · exact (Stage.awaited?_of_held hheld).symm
  · unfold State.IsWorking at hq
    by_cases hpq : p = q
    · subst hpq
      cases (State.procs_setStage_self hproc _).symm.trans hq
      exact Batch.dispatches_ofPlan ..
    · rw [State.procs_setStage_of_ne hpq] at hq
      exact h.intact.plans hq

/-- The process carries out the plan that it takes up. -/
theorem State.MayDispatch.underway (h : s.MayDispatch p errand i)
    (hc : Carrying inTurn p errand i pass (s.takeUp p errand i pass) labels t b) :
    ∃ m, Underway inTurn p errand i pass (s.takeUp p errand i pass) labels t b m :=
  hc.underway (h.intact_takeUp pass) (h.working pass)

/-- **Each dispatch comes to what its node does with it.** -/
theorem State.MayDispatch.outcomes (h : s.MayDispatch p errand i)
    (hc : Carrying inTurn p errand i pass (s.takeUp p errand i pass) labels t b) (hdone : b.isDone)
    (hb : b.Uncancelled) :
    b.outcomes.map Outcome.bare = pass.plan.map fun y => ⟨y, s.engine.verdict s.timeLimit y⟩ := by
  obtain ⟨m, hway⟩ := h.underway hc
  have hsame : (s.takeUp p errand i pass).engine = s.engine ∧
      (s.takeUp p errand i pass).timeLimit = s.timeLimit := by
    rw [h.takeUp]
    exact ⟨rfl, rfl⟩
  rw [hway.owned.outcomes hb hdone, hway.dispatches, hway.timeLimit, hsame.1, hsame.2]

/-- What becomes of a batch that is not cancelled. -/
theorem State.MayDispatch.resolved (h : s.MayDispatch p errand i)
    (hc : Carrying inTurn p errand i pass (s.takeUp p errand i pass) labels t b) (hdone : b.isDone)
    (hb : b.Uncancelled) (wall : Nat) :
    Resolved s.engine s.timeLimit wall pass b.outcomes := by
  obtain ⟨m, hway⟩ := h.underway hc
  have houts := h.outcomes hc hdone hb
  have hplan : b.outcomes.map (·.dispatch) = pass.plan :=
    (Batch.outcomes_dispatches hdone).trans hway.dispatches
  constructor
  case dispatches => exact hplan
  case judged =>
    intro o ho
    obtain ⟨k, hk⟩ := List.mem_iff_getElem?.1 ho
    exact Outcome.judged_of_verdict (Outcome.bare_getElem? houts hk).2
  case taken => exact Pass.foldAll_work ..
  case noted =>
    intro noted hnoted
    have hlog := (Pass.errorLog_foldAll wall b.outcomes pass).1
    rw [hnoted] at hlog
    refine ⟨fun hnil => ?_, fun hne => ?_⟩
    · rw [hlog, hnil]
      rfl
    · rw [hlog, Deployment.errorLog_recordFailures_of_ne_nil _ hne]
  case instances => exact fun hsound => Pass.instances_foldAll hsound hplan.symm wall

/-- A batch that is taken up can be brought to its end, where it is not cancelled unless its
deployment is deleted. -/
theorem State.MayDispatch.completes (h : s.MayDispatch p errand i)
    (hc : Carrying inTurn p errand i pass (s.takeUp p errand i pass) labels t b) :
    ∃ more t' b', Carrying inTurn p errand i pass (s.takeUp p errand i pass) (labels ++ more) t' b' ∧
      b'.isDone ∧ (b'.Uncancelled ∨ errand.IsPass ∧ t'.cancelledAt i = some true) := by
  obtain ⟨more, t', b', hc', hdone⟩ := hc.completes (h.intact_takeUp pass) (h.working pass)
  obtain ⟨m, hway⟩ := h.underway hc'
  exact ⟨more, t', b', hc', hdone, hway.uncancelled⟩

end

/-- **One bad node does not affect the others**, if permits can be counted. Whatever other processes
and clients do meanwhile, each dispatch of a batch that is not cancelled comes to what its own node
does with it; and on engines that agree on all nodes but `x`, batches of one plan come to the same on
the other nodes. -/
theorem bad_node_contained {s s' : State} {p p' : ProcId} {errand errand' : Errand}
    {i i' : SlotId} {x : String} (h : s.MayDispatch p errand i) (h' : s'.MayDispatch p' errand' i')
    (htime : s'.timeLimit = s.timeLimit) (hagree : s.engine.AgreeOff x s'.engine) (pass : Pass)
    {inTurn : Prop} {labels : List Label} {t : State} {b : Batch}
    (hc : Carrying inTurn p errand i pass (s.takeUp p errand i pass) labels t b) :
    (∃ more u c, Carrying inTurn p errand i pass (s.takeUp p errand i pass) (labels ++ more) u c ∧
      c.isDone ∧ (c.Uncancelled ∨ errand.IsPass ∧ u.cancelledAt i = some true)) ∧
    (b.isDone → b.Uncancelled → Resolved s.engine s.timeLimit t.wall pass b.outcomes ∧
      ∀ inTurn' labels' t' b',
        Carrying inTurn' p' errand' i' pass (s'.takeUp p' errand' i' pass) labels' t' b' →
        b'.isDone → b'.Uncancelled →
        Contained x t.wall t'.wall pass b.outcomes b'.outcomes) := by
  refine ⟨h.completes hc, fun hdone hb => ⟨h.resolved hc hdone hb t.wall, ?_⟩⟩
  intro inTurn' labels' t' b' hc' hdone' hb'
  have houts := h.outcomes hc hdone hb
  have houts' := h'.outcomes hc' hdone' hb'
  have hplan := (h.resolved hc hdone hb t.wall).dispatches
  have hplan' := (h'.resolved hc' hdone' hb' t'.wall).dispatches
  rw [htime] at houts'
  exact ⟨hplan'.trans hplan.symm,
    fun k o o' ho ho' hne => Outcome.bare_eq_off hagree houts houts' ho ho' hne,
    Outcome.sameEffects_of_bare (Outcome.off_eq hagree houts houts') ..⟩

/-- A deployment is deleted, and the process that does so has the lock. -/
def deletionDue : List Label :=
  [.submit { deploymentId := some "a", container := { image := "web" }, scale := 2 } "x",
    .delete "a", .advance 1, .advance 1]

/-- What is to be removed are instances on two nodes. -/
def twoRemovals : Pass :=
  Pass.startDrain 0 { Deployment.new "a" { container := { image := "web" }, scale := 2 } 8 0 with
    instances := [⟨"a-1", "n", "sim-000000", "", 0, 1⟩, ⟨"a-2", "m", "sim-000001", "", 0, 2⟩] }

theorem bad_node_contained_twoRemovals : ∃ s s', run oneNode deletionDue = some s ∧
    run oneNode (deletionDue ++ [.change (.fail "m")]) = some s' ∧
    s.MayDispatch 1 (.delete "a") 0 ∧ s'.MayDispatch 1 (.delete "a") 0 ∧
    s'.timeLimit = s.timeLimit ∧ s.engine.AgreeOff "m" s'.engine ∧ ∃ labels t b labels' t' b',
      Carrying True 1 (.delete "a") 0 twoRemovals (s.takeUp 1 (.delete "a") 0 twoRemovals) labels t
        b ∧
      Carrying True 1 (.delete "a") 0 twoRemovals (s'.takeUp 1 (.delete "a") 0 twoRemovals) labels'
        t' b' ∧ b.isDone ∧ b'.isDone ∧ b.Uncancelled ∧ b'.Uncancelled ∧
      Resolved s.engine s.timeLimit t.wall twoRemovals b.outcomes ∧
      Contained "m" t.wall t'.wall twoRemovals b.outcomes b'.outcomes := by
  have hfresh : oneNode.Fresh := fresh_oneNode
  have hcap : oneNode.settings.maxConcurrentDispatches.toNat ≤ Batch.maxPermits := by
    decide +kernel
  have hend : (run oneNode deletionDue).any fun s =>
      s.admitted? 1 == some (.delete "a", 0) := by decide +kernel
  obtain ⟨s, hrun, hs⟩ := (Option.any_eq_true ..).1 hend
  have hproc := State.admitted?_eq_some.1 (beq_iff_eq.1 hs)
  have hrun' : run oneNode (deletionDue ++ [.change (.fail "m")]) =
      some { s with engine := s.engine.fail "m" } := by
    rw [run_append, hrun]
    rfl
  have hcountable : s.settings.maxConcurrentDispatches.toNat ≤ Batch.maxPermits :=
    run_induction (P := fun _ s => Countable s) hcap (fun _ _ _ _ _ hs hstep => hs.step hstep) hrun
  have h : s.MayDispatch 1 (.delete "a") 0 :=
    ⟨hfresh.intact.run hrun, ⟨_, hproc, rfl⟩, hcountable⟩
  have h' : State.MayDispatch { s with engine := s.engine.fail "m" } 1 (.delete "a") 0 :=
    ⟨hfresh.intact.run hrun', ⟨_, hproc, rfl⟩, hcountable⟩
  have hagree := s.engine.agreeOff_fail "m"
  have hnopass : ¬ Errand.IsPass (.delete "a") := fun hpass => hpass "a" rfl
  -- the end of a deployment is not itself cancelled
  have hc₀ (s : State) : Carrying True 1 (.delete "a") 0 twoRemovals
      (s.takeUp 1 (.delete "a") 0 twoRemovals) [] _ _ := .begun
  obtain ⟨more, t, b, hc, hdone, hb⟩ := h.completes (hc₀ _)
  obtain ⟨more', t', b', hc', hdone', hb'⟩ := h'.completes (hc₀ _)
  have hb := hb.resolve_right fun hflag => hnopass hflag.1
  have hb' := hb'.resolve_right fun hflag => hnopass hflag.1
  have hresolved := (bad_node_contained h h' rfl hagree twoRemovals hc).2 hdone hb
  exact ⟨s, _, hrun, hrun', h, h', rfl, hagree, _, t, b, _, t', b', hc, hc', hdone, hdone', hb, hb',
    hresolved.1, hresolved.2 _ _ _ _ hc' hdone' hb'⟩

/-- With more permits than can be counted, a dispatch on a node that neither fails nor takes its time
is not even called. -/
theorem healthy_node_unserved : manyPermits.Fresh ∧
    ∃ s s₁ errand pass x s', run manyPermits firstPasses.dropLast = some s ∧
      Turn s 1 errand 0 s₁ (.dispatching pass) ∧ pass.plan = [x] ∧
      s.engine.isFailing x.nodeId = false ∧ s.engine.latencyOf x.nodeId ≤ s.timeLimit ∧
      step s (.advance 1) = some s' ∧ s'.answer? 1 = some .aborted ∧ s'.engine = {} := by
  have hend : (run manyPermits firstPasses.dropLast).any fun s =>
      (s.progress? 0 (.advance 1)).any (fun progress => progress.plan?.any fun plan =>
        plan.length == 1 && plan.all fun x =>
          s.engine.isFailing x.nodeId == false && s.engine.latencyOf x.nodeId ≤ s.timeLimit) &&
      (step s (.advance 1)).any fun s' =>
        s'.answer? 1 == some .aborted && s'.engine == {} := by decide +kernel
  obtain ⟨s, hrun, hs⟩ := (Option.any_eq_true ..).1 hend
  rw [Bool.and_eq_true] at hs
  obtain ⟨progress, hprogress, hplan⟩ := (Option.any_eq_true ..).1 hs.1
  obtain ⟨s', hstep, hs'⟩ := (Option.any_eq_true ..).1 hs.2
  rw [Bool.and_eq_true, beq_iff_eq, beq_iff_eq] at hs'
  obtain ⟨p, errand, s₁, ⟨⟩, -, hturn⟩ := progress?_eq_some_iff.1 hprogress
  cases progress with
  | dispatching pass =>
    obtain ⟨plan, hsome, hone⟩ := (Option.any_eq_true ..).1 hplan
    cases hsome
    rw [Bool.and_eq_true, beq_iff_eq, List.length_eq_one_iff] at hone
    obtain ⟨⟨x, hx⟩, hgood⟩ := hone
    simp only [hx, List.all_cons, List.all_nil, Bool.and_true, Bool.and_eq_true, beq_iff_eq,
      decide_eq_true_eq] at hgood
    exact ⟨⟨rfl, rfl, rfl⟩, s, s₁, errand, pass, x, s', hrun, hturn, hx, hgood.1, hgood.2, hstep,
      hs'.1, hs'.2⟩
  | finished work report => cases hplan

end Control

end FleetControl
