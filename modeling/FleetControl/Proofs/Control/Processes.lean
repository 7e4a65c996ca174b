import FleetControl.Proofs.Control.Cancellation
import FleetControl.Proofs.Control.Overlap

/-!
# How a process comes to where it is

`Control.Arrives` lists how a step can bring a process to a stage, so that what holds of a process at
a stage is proved from where it was before (`Control.arrives_of_step`).
-/

namespace FleetControl

namespace Control

/-- How the process can come to a stage by a step from `s`. -/
inductive Arrives (s : State) (q : ProcId) : Label → Errand → Stage → Prop
  /-- It stays where it is. -/
  | stayed {l : Label} {errand : Errand} {stage : Stage} :
      l.actor? ≠ some q → s.procs[q]? = some ⟨errand, stage⟩ → Arrives s q l errand stage
  /-- It is handed the lock that it waits for. -/
  | handed {l : Label} {errand : Errand} {i : SlotId} :
      l.actor? ≠ some q → s.procs[q]? = some ⟨errand, .queued i⟩ →
      Arrives s q l errand (.admitted i)
  | refused {request : Request} {fresh : String} {e : Region.Error} :
      s.procs.size = q → s.accept request fresh = .error e →
      Arrives s q (.submit request fresh) (.submit fresh) (.ended (.failed (.region e)))
  | accepted {request : Request} {fresh id : String} {s₁ : State} :
      s.procs.size = q → s.accept request fresh = .ok (s₁, id) →
      Arrives s q (.submit request fresh) (.submit id) (.lookup id)
  | triggered (id : String) : s.procs.size = q →
      Arrives s q (.trigger id) (.trigger id) (.lookup id)
  | unknown {id : String} : s.procs.size = q → s.index.get? id = none →
      Arrives s q (.delete id) (.delete id) (.ended (.failed (.deploymentNotFound id)))
  | unlisted {id : String} {i : SlotId} : s.procs.size = q → s.index.get? id = some i →
      Arrives s q (.delete id) (.delete id) (.flag i)
  | swept {id : String} {i : SlotId} : s.procs.size ≤ q → s.index.get? id = some i →
      Arrives s q .sweep (.sweep id) (.approach i)
  | missed {errand : Errand} {id : String} :
      s.procs[q]? = some ⟨errand, .lookup id⟩ → s.index.get? id = none →
      Arrives s q (.advance q) errand (.ended (.failed (.deploymentNotFound id)))
  | looked {errand : Errand} {id : String} {i : SlotId} :
      s.procs[q]? = some ⟨errand, .lookup id⟩ → s.index.get? id = some i →
      Arrives s q (.advance q) errand (.approach i)
  | flagged {errand : Errand} {i : SlotId} : s.procs[q]? = some ⟨errand, .flag i⟩ →
      Arrives s q (.advance q) errand (.approach i)
  | locked {errand : Errand} {i : SlotId} : s.procs[q]? = some ⟨errand, .approach i⟩ →
      Arrives s q (.advance q) errand (.admitted i)
  | waited {errand : Errand} {i : SlotId} {holder : ProcId} :
      s.procs[q]? = some ⟨errand, .approach i⟩ → s.holder i = some holder →
      Arrives s q (.advance q) errand (.queued i)
  | unplaced {errand : Errand} {i : SlotId} {sl : Slot} {work : Deployment} {e : Region.Error} :
      s.procs[q]? = some ⟨errand, .admitted i⟩ → errand.IsPass → s.slots[i]? = some sl →
      Pass.start s.fleet sl.record.begun = .failed work e →
      Arrives s q (.advance q) errand (.ended (.failed (.region e)))
  | dispatched {errand : Errand} {i : SlotId} {s₁ : State} {pass : Pass} :
      Turn s q errand i s₁ (.dispatching pass) →
      Arrives s q (.advance q) errand (.working i pass (s₁.batchOf pass.plan))
  | aborted {errand : Errand} {i : SlotId} {s₁ : State} {pass : Pass} :
      Turn s q errand i s₁ (.dispatching pass) →
      Batch.maxPermits < (s₁.batchOf pass.plan).permits →
      Arrives s q (.advance q) errand (.ended .aborted)
  | finished {errand : Errand} {i : SlotId} {s₁ : State} {work : Deployment} {report : Report} :
      Turn s q errand i s₁ (.finished work report) →
      Arrives s q (.advance q) errand (.ended (State.answerOf errand work report))
  | issued {errand : Errand} {i : SlotId} {pass : Pass} {batch batch' : Batch} {cancelled : Bool} :
      s.procs[q]? = some ⟨errand, .working i pass batch⟩ →
      batch.handOut cancelled = some batch' →
      Arrives s q (.advance q) errand (.working i pass batch')
  | called {l : Label} {errand : Errand} {i : SlotId} {pass : Pass} {batch batch' : Batch} :
      l.actor? = some q → s.procs[q]? = some ⟨errand, .working i pass batch⟩ →
      batch.Move s.now s.engine batch' →
      Arrives s q l errand (.working i pass batch')

section

variable {s s' : State} {l : Label} {p q : ProcId} {errand : Errand} {stage : Stage} {i : SlotId}

theorem move_of_called {k now : Nat} {b b' : Batch} {e e' : Engine}
    (h : l = .startCall p k ∧ b.start k now e = some (b', e') ∨
      l = .settleCall p k ∧ b.settle k now e = some (b', e')) : b.Move now e b' :=
  h.elim (fun h => .start h.2) fun h => .settle h.2

/-- A process that there was before has moved nowhere when another is started. -/
theorem arrives_spawn {errand' : Errand} {new : Stage} {s₁ : State} (hprocs : s₁.procs = s.procs)
    (hactor : l.actor? = none) (hnew : s.procs.size = q → Arrives s q l errand' new)
    (hq : (s₁.spawn errand' new).1.procs[q]? = some ⟨errand, stage⟩) :
    Arrives s q l errand stage := by
  rw [State.procs_spawn, hprocs] at hq
  split at hq
  · next hlast =>
    cases hq
    exact hnew hlast.symm
  · exact .stayed (by simp [hactor]) hq

theorem arrives_setStage {old new : Stage} {errand' : Errand} {s₁ : State}
    (hprocs : s₁.procs = s.procs) (hactor : l.actor? = some p)
    (hp : s.procs[p]? = some ⟨errand', old⟩) (hnew : p = q → Arrives s q l errand' new)
    (hq : (s₁.setStage p new).procs[q]? = some ⟨errand, stage⟩) : Arrives s q l errand stage := by
  by_cases hpq : p = q
  · subst hpq
    rw [State.procs_setStage_self (hprocs ▸ hp)] at hq
    cases hq
    exact hnew rfl
  · rw [State.procs_setStage_of_ne hpq, hprocs] at hq
    exact .stayed (by simp [hactor, hpq]) hq

theorem arrives_endProc {old : Stage} {errand' : Errand} {answer : Answer} {s₁ : State}
    (hl : Locked s₁) (hprocs : s₁.procs = s.procs) (hactor : l.actor? = some p)
    (hp : s.procs[p]? = some ⟨errand', old⟩) (hheld : old.held? = some i)
    (hnew : p = q → Arrives s q l errand' (.ended answer))
    (hq : (s₁.endProc p i answer).procs[q]? = some ⟨errand, stage⟩) :
    Arrives s q l errand stage := by
  rcases State.procs_endProc hl (hprocs ▸ hp) hheld answer q with
    ⟨hpq, heq⟩ | ⟨hpq, errand'', hqueued, heq⟩ | ⟨hpq, heq⟩
  · cases heq.symm.trans hq
    exact hnew hpq
  · cases heq.symm.trans hq
    exact .handed (by simp [hactor, hpq]) (hprocs ▸ hqueued)
  · exact .stayed (by simp [hactor, hpq]) (hprocs ▸ heq.symm.trans hq)

/-- **Every process came to its stage** in one of these ways. -/
theorem arrives_of_step (hl : Locked s) (hstep : step s l = some s')
    (hq : s'.procs[q]? = some ⟨errand, stage⟩) : Arrives s q l errand stage := by
  cases moves_of_step hstep with
  | refused e haccept => exact arrives_spawn rfl rfl (fun h => .refused h haccept) hq
  | revised haccept _ => exact arrives_spawn rfl rfl (fun h => .accepted h haccept) hq
  | founded haccept _ => exact arrives_spawn rfl rfl (fun h => .accepted h haccept) hq
  | triggered id => exact arrives_spawn rfl rfl (fun h => .triggered id h) hq
  | unknown hget => exact arrives_spawn rfl rfl (fun h => .unknown h hget) hq
  | unlisted hget => exact arrives_spawn rfl rfl (fun h => .unlisted h hget) hq
  | swept =>
    refine (State.sweep_induction (P := fun s' => s.procs.size ≤ s'.procs.size ∧
      (s'.procs[q]? = some ⟨errand, stage⟩ → Arrives s q .sweep errand stage)) ?_ ?_).2 hq
    · exact ⟨Nat.le_refl _, .stayed (by simp [Label.actor?])⟩
    · rintro s₁ id i ⟨hsize, h⟩ - hget
      refine ⟨Nat.le_trans hsize (by simp [State.spawn]), fun hq => ?_⟩
      rw [State.procs_spawn] at hq
      split at hq
      · next hlast =>
        cases hq
        exact .swept (hlast ▸ hsize) hget
      · exact h hq
  | missed hproc hget =>
    exact arrives_setStage rfl rfl hproc (fun h => h ▸ .missed hproc hget) hq
  | looked hproc hget =>
    exact arrives_setStage rfl rfl hproc (fun h => h ▸ .looked hproc hget) hq
  | flagged hproc => exact arrives_setStage rfl rfl hproc (fun h => h ▸ .flagged hproc) hq
  | locked hproc _ _ => exact arrives_setStage rfl rfl hproc (fun h => h ▸ .locked hproc) hq
  | waited hproc hslot hholder =>
    have hheld := (State.holder_of_slot hslot).trans hholder
    exact arrives_setStage rfl rfl hproc (fun h => h ▸ .waited hproc hheld) hq
  | unplaced hproc hpass hslot hstart =>
    exact arrives_endProc ((hl.mapRecord ..).mapRecord ..) rfl rfl hproc rfl
      (fun h => h ▸ .unplaced hproc hpass hslot hstart) hq
  | turned hturn hfollow =>
    obtain ⟨old, hproc, hheld⟩ := hturn.held
    have hproc₀ := hturn.procs ▸ hproc
    have hl₁ := hl.turn hturn
    cases hfollow with
    | dispatched pass _ =>
      exact arrives_setStage hturn.procs rfl hproc₀ (fun h => h ▸ .dispatched hturn) hq
    | aborted pass hover =>
      exact arrives_endProc hl₁ hturn.procs rfl hproc₀ hheld (fun h => h ▸ .aborted hturn hover) hq
    | published work report _ =>
      exact arrives_endProc (hl₁.mapRecord ..) hturn.procs rfl hproc₀ hheld
        (fun h => h ▸ .finished hturn) hq
    | deleted id work report hdelete =>
      subst hdelete
      exact arrives_endProc hl₁ hturn.procs rfl hproc₀ hheld (fun h => h ▸ .finished hturn) hq
  | issued hproc _ hhand =>
    exact arrives_setStage rfl rfl hproc (fun h => h ▸ .issued hproc hhand) hq
  | called hproc hcall =>
    exact arrives_setStage rfl (actor?_of_called hcall) hproc
      (fun h => h ▸ .called (actor?_of_called hcall) hproc (move_of_called hcall)) hq
  | elapsed now _ => exact .stayed (by simp [Label.actor?]) hq
  | changed c => cases c <;> exact .stayed (by simp [Label.actor?]) hq

end

end Control

end FleetControl
