import FleetControl.Proofs.Control.Processes
import FleetControl.Proofs.Control.Slots
import FleetControl.Proofs.Pass.Cap

/-!
# The cap on instances per node holds over whole runs

The cap stays as it is (`Control.cap_run`), and every record and every pass under way keeps to it,
whatever specifications were asked for in the meantime: a record counts the instances of a
fingerprint also while they are stale (`Control.Within`).

`Control.calls` lists the dispatches whose calls a process has begun. Those that it has begun and
those still to begin create instances on distinct nodes (`Control.Spaced`), so that no pass makes two
calls to create an instance on one node.
-/

namespace FleetControl

namespace Control

section

variable {s₀ s s' s₁ : State} {labels : List Label} {l : Label} {p q : ProcId} {errand : Errand}
  {stage : Stage} {i : SlotId} {progress : Progress} {cap : UInt32}

/-! ### The cap of a run -/

/-- The cap stays as it is. -/
theorem cap_run (hrun : run s₀ labels = some s) :
    s.selector.maxInstancesPerNode = s₀.selector.maxInstancesPerNode := by
  refine run_induction (P := fun _ s =>
    s.selector.maxInstancesPerNode = s₀.selector.maxInstancesPerNode) rfl ?_ hrun
  intro labels s l s' _ h hstep
  rcases selector_step hstep with hsame | ⟨d, pass, hstart⟩
  · rw [hsame, h]
  · exact (Pass.start_planned hstart).2.2.2.2.2.trans h

/-! ### Records and passes within the cap -/

/-- No node has more instances of a fingerprint than the cap. -/
def Within (cap : UInt32) (d : Deployment) : Prop :=
  ∀ nodeId fingerprint, d.runningOn nodeId fingerprint ≤ cap.toNat

/-- No node has more instances of a fingerprint than the cap with those that are still planned. -/
def WithinPass (cap : UInt32) (p : Pass) : Prop :=
  ∀ nodeId fingerprint, p.supplyWhere (· == nodeId) fingerprint ≤ cap.toNat

theorem Within.of_sublist {d d' : Deployment} (h : Within cap d)
    (hinst : d'.instances.Sublist d.instances) : Within cap d' := fun nodeId fingerprint =>
  Nat.le_trans hinst.countP_le (h nodeId fingerprint)

theorem Within.begun {d : Deployment} (h : Within cap d) : Within cap d.begun := by
  obtain ⟨state, heq⟩ := d.begun_eq
  rw [heq]
  exact h

theorem WithinPass.work {pass : Pass} (h : WithinPass cap pass) : Within cap pass.work :=
  fun nodeId fingerprint => Nat.le_trans (Nat.le_add_right ..) (h nodeId fingerprint)

/-- A step keeps records and passes within the cap. -/
theorem upkeep_within (hcap : s.selector.maxInstancesPerNode = some cap) (l : Label) :
    Upkeep s l (fun _ d => Within cap d) (fun _ d => Within cap d) (fun _ _ _ p₀ => WithinPass cap p₀)
      (fun _ _ _ p₀ => WithinPass cap p₀) := by
  have habsorb : ∀ {d work : Deployment}, Within cap work → Within cap (d.absorb work) := by
    intro d work h
    exact h.of_sublist (Deployment.absorb_instances d work ▸ List.Sublist.refl _)
  constructor
  case record_mono => exact fun hd => hd
  case pass_mono => exact fun hp => hp
  case founded => exact fun _ _ _ _ => Nat.zero_le _
  case revised => exact fun _ _ _ hd => hd
  case begun => exact fun hd => hd.begun
  case unplaced =>
    intro i d work e hd hstart
    refine habsorb (hd.begun.of_sublist ?_)
    exact (Pass.start_failed hstart).2.1 ▸ Pass.dropLost_sublist ..
  case opened =>
    exact fun _ _ _ _ hd hstart => Pass.supplyOn_start hcap hd.begun hstart
  case drained =>
    intro p id i sl _ _ _ hd nodeId fingerprint
    rw [Pass.supplyWhere, Pass.startDrain, Pass.countP_create_map_remove (· == nodeId), ite_self]
    exact hd nodeId fingerprint
  case finished =>
    intro p errand i p₀ q outs f work report d _ hb hcourse _ hend _
    have hq : WithinPass cap q := fun nodeId fingerprint =>
      Nat.le_trans (hcourse.supplyWhere_le ..) (hb nodeId fingerprint)
    exact habsorb (hq.work.of_sublist ((Pass.finished_eq hend).2.1 ▸ List.Sublist.refl _))

/-! ### Calls of a process -/

/-- The dispatch whose call the process begins in a step. -/
def State.call? (s : State) (p : ProcId) : Label → Option Dispatch
  | .startCall q k =>
    if q = p then (s.batch? p).bind fun batch => (batch.calls[k]?).map (·.dispatch) else none
  | _ => none

/-- The dispatches whose calls the process begins in a run. -/
def calls (p : ProcId) (s₀ : State) (labels : List Label) : List Dispatch :=
  gather (·.call? p) s₀ labels

theorem batch?_eq_some {batch : Batch} :
    s.batch? p = some batch ↔ ∃ errand i pass, s.IsWorking p errand i pass batch := by
  unfold State.batch? State.IsWorking
  split
  · next errand i pass batch' hp => simp [hp]
  · next hp => simpa using fun errand i pass => hp errand i pass batch

theorem call?_of_idle (h : ∀ errand i pass batch, ¬ s.IsWorking p errand i pass batch) (l : Label) :
    s.call? p l = none := by
  have hnone : s.batch? p = none := by
    refine Option.eq_none_iff_forall_ne_some.2 fun batch hbatch => ?_
    obtain ⟨errand, i, pass, hp⟩ := batch?_eq_some.1 hbatch
    exact h errand i pass batch hp
  cases l with
  | startCall q k => simp [State.call?, hnone]
  | _ => rfl

theorem call?_of_other (h : l.actor? ≠ some p) : s.call? p l = none := by
  cases l with
  | startCall q k => exact if_neg fun hq => h (congrArg some hq)
  | _ => rfl

/-- The calls that a process has begun create instances on distinct nodes, together with those of its
plan that are still to begin. -/
inductive Spaced (s : State) (p : ProcId) : List Dispatch → Prop
  | before : (∀ errand i pass batch, ¬ s.IsWorking p errand i pass batch) → Spaced s p []
  | working {made : List Dispatch} {errand : Errand} {i : SlotId} {pass : Pass} {batch : Batch} :
      s.IsWorking p errand i pass batch → (Dispatch.createdOn (made ++ batch.unbegun)).Nodup →
      Spaced s p made
  | ended {made : List Dispatch} {answer : Answer} : s.answer? p = some answer →
      (Dispatch.createdOn made).Nodup → Spaced s p made

variable {made : List Dispatch} {pass : Pass} {batch : Batch}

theorem Spaced.nodup (h : Spaced s p made) : (Dispatch.createdOn made).Nodup := by
  cases h with
  | before _ => exact List.nodup_nil
  | working _ hnodup =>
    rw [Dispatch.createdOn_append] at hnodup
    exact (List.nodup_append.1 hnodup).1
  | ended _ hnodup => exact hnodup

/-- The first plan that a process gets under way creates on distinct nodes. -/
theorem Turn.nodup_createdOn (hturn : Turn s p errand i s₁ (.dispatching pass))
    (hidle : ∀ errand i pass batch, ¬ s.IsWorking p errand i pass batch) :
    (Dispatch.createdOn pass.plan).Nodup := by
  generalize hprogress : Progress.dispatching pass = progress at hturn
  cases hturn with
  | opened _ _ _ hstart =>
    exact Pass.nodup_createdOn_launch (Pass.nodup_createdOn_start hstart) hprogress.symm
  | drained _ _ =>
    refine Pass.nodup_createdOn_launch ?_ hprogress.symm
    rw [Pass.startDrain, Dispatch.createdOn_map_remove]
    exact List.nodup_nil
  | concluded hproc _ _ _ => exact absurd hproc (hidle _ _ _ _)

/-- A process that carries out a plan goes on with it, makes the next, or comes to its end. -/
theorem Spaced.work (hl : Locked s) (hp : s.IsWorking p errand i pass batch)
    (hnodup : (Dispatch.createdOn (made ++ batch.unbegun)).Nodup) (hstep : step s l = some s')
    (hactor : l.actor? = some p) : Spaced s' p (made ++ (s.call? p l).toList) := by
  have hmade : (Dispatch.createdOn made).Nodup := (Spaced.working hp hnodup).nodup
  cases workStep_of_step hp hstep hactor with
  | issued _ hout =>
    rw [show s.call? p (.advance p) = none from rfl, Option.toList_none, List.append_nil]
    refine .working (State.procs_setStage_self hp _) (hnodup.sublist (Dispatch.createdOn_sublist ?_))
    exact (Batch.unbegun_handOut hout).append_left made
  | @started k batch' engine hcall =>
    obtain ⟨x, hx, hperm⟩ := Batch.unbegun_start hcall
    have hcalled : s.call? p (.startCall p k) = some x := by
      rw [State.call?, if_pos rfl, batch?_eq_some.2 ⟨errand, i, pass, hp⟩, Option.bind_some, hx]
    rw [hcalled, Option.toList_some]
    refine .working (State.procs_setStage_self (s := { s with engine }) hp _) ?_
    rw [List.append_assoc, List.singleton_append]
    exact (Dispatch.createdOn_perm (hperm.append_left made)).nodup_iff.2 hnodup
  | settled hcall =>
    rw [show s.call? p (.settleCall p _) = none from rfl, Option.toList_none, List.append_nil]
    refine .working (State.procs_setStage_self (s := { s with engine := _ }) hp _) ?_
    rwa [Batch.unbegun_settle hcall]
  | concluded _ _ hfollow =>
    rw [show s.call? p (.advance p) = none from rfl, Option.toList_none, List.append_nil]
    generalize hprogress : pass.conclude s.fleet batch.outcomes = progress at hfollow
    cases hfollow with
    | dispatched pass' _ =>
      refine .working (State.procs_setStage_self hp _) ?_
      rw [State.batchOf, Batch.unbegun_ofPlan, Dispatch.createdOn_append,
        Pass.createdOn_conclude hprogress, List.append_nil]
      exact hmade
    | aborted pass' _ => exact .ended (answer?_endProc hl hp rfl _) hmade
    | published work report _ =>
      exact .ended (answer?_endProc (hl.mapRecord ..) hp rfl _) hmade
    | deleted id work report _ => exact .ended (answer?_endProc hl hp rfl _) hmade

/-- **A process keeps its creations apart.** -/
theorem Spaced.step (h : Spaced s p made) (hI : Intact s) (hstep : Control.step s l = some s') :
    Spaced s' p (made ++ (s.call? p l).toList) := by
  cases h with
  | before hidle =>
    rw [call?_of_idle hidle, Option.toList_none, List.append_nil]
    by_cases hworking : ∀ errand i pass batch, ¬ s'.IsWorking p errand i pass batch
    · exact .before hworking
    · -- its first plan has got under way
      simp only [not_forall, not_not] at hworking
      obtain ⟨errand, i, pass, batch, hp⟩ := hworking
      cases arrives_of_step hI.locked hstep hp with
      | stayed _ hproc => exact absurd hproc (hidle _ _ _ _)
      | dispatched hturn =>
        refine .working hp ?_
        rw [List.nil_append, State.batchOf, Batch.unbegun_ofPlan]
        exact hturn.nodup_createdOn hidle
      | issued hproc _ => exact absurd hproc (hidle _ _ _ _)
      | called _ hproc _ => exact absurd hproc (hidle _ _ _ _)
  | working hp hnodup =>
    by_cases hactor : l.actor? = some p
    · exact Spaced.work hI.locked hp hnodup hstep hactor
    · rw [call?_of_other hactor, Option.toList_none, List.append_nil]
      rcases proc_step hI.locked hstep hactor hp with hsame | ⟨_, ⟨⟩, -⟩
      exact .working hsame hnodup
  | ended hanswer hnodup =>
    have hidle : ∀ errand i pass batch, ¬ s.IsWorking p errand i pass batch := by
      intro errand i pass batch hp
      obtain ⟨errand', hproc⟩ := State.answer?_eq_some.1 hanswer
      cases hproc.symm.trans hp
    rw [call?_of_idle hidle, Option.toList_none, List.append_nil]
    exact .ended (answer_step hI.locked hstep hanswer) hnodup

theorem spaced_run (h₀ : s₀.Fresh) (hrun : run s₀ labels = some s) (p : ProcId) :
    Spaced s p (calls p s₀ labels) := by
  refine run_induction (P := fun labels s => Spaced s p (calls p s₀ labels)) ?_ ?_ hrun
  · refine .before fun errand i pass batch hp => ?_
    rw [State.IsWorking, h₀.procs] at hp
    cases hp
  · intro labels s l s' hrun h hstep
    rw [calls, gather_concat _ hrun]
    exact h.step (h₀.intact.run hrun) hstep

/-- **The cap holds over whole runs.** Whatever the order of calls and passes, and whatever comes of
the calls to the engine, no record has more instances of a fingerprint on a node than the cap, and no
pass makes two calls to create an instance on one node. -/
theorem cap_holds (h₀ : s₀.Fresh) (hcap : s₀.selector.maxInstancesPerNode = some cap)
    (hrun : run s₀ labels = some s) :
    (∀ i d, s.recordAt i = some d →
      ∀ nodeId fingerprint, d.runningOn nodeId fingerprint ≤ cap.toNat) ∧
    ∀ p, (Dispatch.createdOn (calls p s₀ labels)).Nodup := by
  have htracks := Tracks.run (h₀.tracks _ _)
    (fun labels s l hrun => upkeep_within ((cap_run hrun).trans hcap) l) hrun
  exact ⟨fun i d hd => htracks.record hd, fun p => (spaced_run h₀ hrun p).nodup⟩

end

/-- A control plane over two nodes, each of which may host one instance of a deployment. -/
def cappedNodes : State where
  tree := ⟨[{ name := "" }]⟩
  registry := .ofNodes [{ id := "n" }, { id := "m" }]
  selector := { maxInstancesPerNode := some 1 }
  settings := {}

/-- A deployment is replaced by another and comes back, with more wanted than there is room for. In
the meantime one of the nodes changes places with the other. -/
def thereAndBack : List Label :=
  [.change (.setHealthy "m" false),
    .submit { deploymentId := some "a", container := { image := "web" }, scale := 1 } "b"] ++
  List.replicate 4 (.advance 0) ++ [.startCall 0 0, .advance 0,
    .change (.setHealthy "m" true), .change (.setHealthy "n" false),
    .submit { deploymentId := some "a", container := { image := "db" }, scale := 1 } "b",
    .submit { deploymentId := some "a", container := { image := "web" }, scale := 3 } "b"] ++
  List.replicate 4 (.advance 2) ++ [.startCall 2 0, .advance 2]

theorem cap_holds_thereAndBack : cappedNodes.Fresh ∧
    cappedNodes.selector.maxInstancesPerNode = some 1 ∧ ∃ s d,
      run cappedNodes thereAndBack = some s ∧ s.recordAt 0 = some d ∧ d.instances.length = 2 ∧
      (∀ nodeId fingerprint, d.runningOn nodeId fingerprint ≤ 1) ∧
      (Dispatch.createdOn (calls 2 cappedNodes thereAndBack)).Nodup := by
  have hend : (run cappedNodes thereAndBack).any fun s =>
      (s.recordAt 0).any fun d => d.instances.length == 2 := by decide +kernel
  obtain ⟨s, hrun, hs⟩ := (Option.any_eq_true ..).1 hend
  obtain ⟨d, hd, hlength⟩ := (Option.any_eq_true ..).1 hs
  have hfresh : cappedNodes.Fresh := ⟨rfl, rfl, rfl⟩
  obtain ⟨hrecords, hcalls⟩ := cap_holds hfresh rfl hrun
  exact ⟨hfresh, rfl, s, d, hrun, hd, beq_iff_eq.1 hlength, hrecords 0 d hd, hcalls 2⟩

end Control

end FleetControl
