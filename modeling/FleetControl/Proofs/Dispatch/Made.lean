import FleetControl.Proofs.Dispatch.Order
import FleetControl.Proofs.Pass.Ledger

/-!
# Calls that were made

The engine counts a call when it begins (`Batch.calls_start`), and nothing else of a batch makes it
count (`Batch.calls_settle`). So it has counted as many calls of a batch as have begun, and in the
end these are the ones that were not skipped (`Batch.countP_outcomes`).
-/

namespace FleetControl

namespace Engine

/-- Number of calls so far. -/
def calls (e : Engine) : Nat := e.createCalls + e.removeCalls

theorem calls_count (e : Engine) (kind : DispatchKind) : (e.count kind).calls = e.calls + 1 := by
  cases kind <;> simp only [calls, count] <;> omega

theorem calls_perform (e : Engine) (x : Dispatch) : (x.perform e).1.calls = e.calls := by
  cases x with
  | create node spec seq =>
    cases hfail : e.isFailing node.id <;> simp [Dispatch.perform, create, hfail, calls]
  | remove target stale =>
    cases hfail : e.isFailing target.nodeId <;> simp [Dispatch.perform, remove, hfail, calls, kill]

end Engine

namespace Batch

variable {b b' : Batch} {e e' : Engine} {k now : Nat} {c : Call}

/-- Number of calls that have begun. -/
def started (b : Batch) : Nat := b.calls.countP Call.hasStarted

theorem started_ofPlan (limit timeout : Nat) (plan : List Dispatch) :
    (ofPlan limit timeout plan).started = 0 := by
  refine List.countP_eq_zero.2 fun c hc => ?_
  obtain ⟨x, -, rfl⟩ := List.mem_map.1 hc
  exact Bool.false_ne_true

theorem started_setStatus (hc : b.calls[k]? = some c) (status : CallStatus) :
    (b.setStatus k status).started + (if c.hasStarted then 1 else 0) =
      b.started + if Call.hasStarted { c with status } then 1 else 0 := by
  obtain ⟨before, after, hcalls, hset⟩ := setStatus_calls hc status
  rw [started, started, hset, hcalls, List.countP_append, List.countP_append, List.countP_cons,
    List.countP_cons]
  omega

/-- No call begins by a permit or without one. -/
theorem started_handOut {cancelled : Bool} (h : b.handOut cancelled = some b') :
    b'.started = b.started := by
  obtain ⟨hpending, -, rfl⟩ := handOut_eq_some h
  cases cancelled with
  | true =>
    rw [started, if_pos rfl, List.countP_map, started]
    refine List.countP_congr fun c _ => ?_
    rcases c.cancel_eq with ⟨-, hsame⟩ | ⟨hwaits, hcancelled⟩
    · rw [Function.comp_apply, hsame]
    · obtain ⟨dispatch, status⟩ := c
      rw [Function.comp_apply, hcancelled]
      cases status with
      | pending => exact Iff.rfl
      | _ => cases hwaits
  | false =>
    obtain ⟨before, c, after, hcalls, hstatus, hissue⟩ := issueFirst_eq hpending
    have hsame : Call.hasStarted { c with status := .issued } = c.hasStarted := by
      obtain ⟨dispatch, status⟩ := c
      cases hstatus
      rfl
    rw [if_neg Bool.false_ne_true, started, started, hissue, hcalls, List.countP_append,
      List.countP_append, List.countP_cons, List.countP_cons, hsame]

/-- **A call that begins is counted.** -/
theorem calls_start (h : b.start k now e = some (b', e')) :
    b'.started = b.started + 1 ∧ e'.calls = e.calls + 1 := by
  constructor
  · obtain ⟨x, status, hx, rfl, hbegun, hcancelled⟩ := start_eq_some h
    have hset := started_setStatus hx status
    have hissued : Call.hasStarted ⟨x, .issued⟩ = false := rfl
    have hstarted : Call.hasStarted ⟨x, status⟩ = true := by
      rw [Call.hasStarted, hbegun, hcancelled]
      rfl
    rwa [hissued, hstarted, if_neg Bool.false_ne_true, if_pos rfl, Nat.add_zero] at hset
  · unfold start at h
    split at h
    · next x hx =>
      have hcount := e.calls_count x.kind
      dsimp only at h
      split_ifs at h
      · cases h
        rw [Engine.calls_perform, hcount]
      · cases h
        exact hcount
      · cases h
        exact hcount
    · cases h

/-- A call that ends was counted when it began. -/
theorem calls_settle (h : b.settle k now e = some (b', e')) :
    b'.started = b.started ∧ e'.calls = e.calls := by
  constructor
  · obtain ⟨x, due, givenUp, result, hx, rfl, hcancelled⟩ := settle_eq_some h
    have hset := started_setStatus hx (.done result)
    have hrunning : Call.hasStarted ⟨x, .running due givenUp⟩ = true := rfl
    have hstarted : Call.hasStarted ⟨x, .done result⟩ = true := by
      rw [Call.hasStarted, hcancelled]
      rfl
    rw [hrunning, hstarted, if_pos rfl] at hset
    exact Nat.add_right_cancel hset
  · unfold settle at h
    split at h
    · split_ifs at h
      · cases h
        rfl
      · cases h
        exact Engine.calls_perform ..
    · cases h

/-- In the end the calls that have begun are those that were not skipped. -/
theorem countP_outcomes (h : b.isDone) :
    b.outcomes.countP (fun o => !o.isSkipped) = b.started := by
  suffices hall : ∀ calls : List Call, calls.all Call.isDone →
      (calls.filterMap Call.outcome?).countP (fun o => !o.isSkipped) =
        calls.countP Call.hasStarted from hall b.calls h
  intro calls
  induction calls with
  | nil => exact fun _ => rfl
  | cons c rest ih =>
    intro hdone
    rw [List.all_cons, Bool.and_eq_true] at hdone
    obtain ⟨dispatch, status⟩ := c
    cases status with
    | done result =>
      have hsame : (!Outcome.isSkipped ⟨dispatch, result⟩) =
          Call.hasStarted ⟨dispatch, .done result⟩ := by
        cases result with
        | ok handle => rfl
        | error e => cases e <;> rfl
      show List.countP _ (⟨dispatch, result⟩ :: rest.filterMap Call.outcome?) = _
      rw [List.countP_cons, List.countP_cons, ih hdone.2, hsame]
    | _ => cases hdone.1

end Batch

end FleetControl
