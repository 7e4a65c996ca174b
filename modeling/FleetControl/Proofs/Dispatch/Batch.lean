import FleetControl.Dispatch.Batch
import Mathlib.Tactic.SplitIfs

/-!
# What a move does to a batch

A move changes the status of calls and nothing else of a batch, so a batch has the dispatches of its
plan throughout (`Batch.dispatches`), and when all calls are over the outcomes are of just these
(`Batch.outcomes_dispatches`).

The moves that touch the engine are of one call each (`Batch.CallMove`): the call stays without
effect, or it is performed.
-/

namespace FleetControl

namespace Engine

/-- The engines have the same containers and answer alike. -/
structure Alike (e e' : Engine) : Prop where
  containers : e'.containers = e.containers
  failing : e'.failing = e.failing
  latency : e'.latency = e.latency
  nextHandle : e'.nextHandle = e.nextHandle

theorem Alike.refl (e : Engine) : e.Alike e := ⟨rfl, rfl, rfl, rfl⟩

theorem alike_count (e : Engine) (kind : DispatchKind) : e.Alike (e.count kind) := by
  cases kind <;> exact ⟨rfl, rfl, rfl, rfl⟩

/-- In both engines the same nodes fail, and take the same time. -/
structure SameNodes (e e' : Engine) : Prop where
  failing : e'.failing = e.failing
  latency : e'.latency = e.latency

theorem SameNodes.refl (e : Engine) : e.SameNodes e := ⟨rfl, rfl⟩

theorem SameNodes.symm {e e' : Engine} (h : e.SameNodes e') : e'.SameNodes e :=
  ⟨h.failing.symm, h.latency.symm⟩

theorem SameNodes.trans {e e' e'' : Engine} (h : e.SameNodes e') (h' : e'.SameNodes e'') :
    e.SameNodes e'' :=
  ⟨h'.failing.trans h.failing, h'.latency.trans h.latency⟩

theorem Alike.sameNodes {e e' : Engine} (h : e.Alike e') : e.SameNodes e' := ⟨h.failing, h.latency⟩

theorem sameNodes_perform (e : Engine) (x : Dispatch) : e.SameNodes (x.perform e).1 := by
  cases x with
  | create node spec seq =>
    cases hfail : e.isFailing node.id <;> simp [Dispatch.perform, create, hfail] <;>
      exact ⟨rfl, rfl⟩
  | remove target stale =>
    cases hfail : e.isFailing target.nodeId <;> simp [Dispatch.perform, remove, hfail] <;>
      exact ⟨rfl, rfl⟩

end Engine

namespace Batch

/-- The dispatches of a batch, in the order of the plan. -/
def dispatches (b : Batch) : List Dispatch := b.calls.map (·.dispatch)

/-- One permit at least can always be counted. -/
theorem permits_ofPlan_le {limit : Nat} (hlimit : limit ≤ maxPermits) (timeout : Nat)
    (plan : List Dispatch) : (ofPlan limit timeout plan).permits ≤ maxPermits :=
  Nat.max_le.2 ⟨hlimit, by decide⟩

@[simp] theorem dispatches_ofPlan (limit timeout : Nat) (plan : List Dispatch) :
    (ofPlan limit timeout plan).dispatches = plan := by
  rw [dispatches, ofPlan, List.map_map]
  exact List.map_id plan

/-- Putting a status on a call touches that call alone. -/
theorem setStatus_calls {b : Batch} {k : Nat} {c : Call} (h : b.calls[k]? = some c)
    (status : CallStatus) : ∃ before after, b.calls = before ++ c :: after ∧
      (b.setStatus k status).calls = before ++ { c with status } :: after := by
  obtain ⟨hk, rfl⟩ := List.getElem?_eq_some_iff.1 h
  refine ⟨b.calls.take k, b.calls.drop (k + 1), ?_, List.modify_eq_take_cons_drop hk⟩
  rw [← List.drop_eq_getElem_cons hk, List.take_append_drop]

@[simp] theorem dispatches_setStatus (b : Batch) (k : Nat) (status : CallStatus) :
    (b.setStatus k status).dispatches = b.dispatches := by
  cases h : b.calls[k]? with
  | none => rw [setStatus, List.modify_eq_self (List.getElem?_eq_none_iff.1 h)]
  | some c =>
    obtain ⟨before, after, hcalls, hset⟩ := setStatus_calls h status
    simp [dispatches, hcalls, hset]

/-! ### Permits -/

theorem issueFirst_eq {calls : List Call} (h : calls.any Call.isPending) :
    ∃ before c after, calls = before ++ c :: after ∧ c.status = .pending ∧
      issueFirst calls = before ++ { c with status := .issued } :: after := by
  induction calls with
  | nil => cases h
  | cons c rest ih =>
    by_cases hc : c.isPending
    · refine ⟨[], c, rest, rfl, ?_, by simp [issueFirst, hc]⟩
      obtain ⟨dispatch, status⟩ := c
      cases status <;> first | rfl | cases hc
    · obtain ⟨before, c', after, hrest, hpending, hissue⟩ := ih (by simpa [hc] using h)
      exact ⟨c :: before, c', after, by rw [hrest]; rfl, hpending, by simp [issueFirst, hc, hissue]⟩

/-- Handing out gives one permit, or cancels what has none. -/
theorem handOut_eq_some {cancelled : Bool} {b b' : Batch} (h : b.handOut cancelled = some b') :
    b.calls.any Call.isPending ∧ b.inFlight < b.permits ∧ b' = { b with
      calls := if cancelled then b.calls.map Call.cancel else issueFirst b.calls } := by
  unfold handOut at h
  split at h
  · next hcond =>
    rw [Bool.and_eq_true, decide_eq_true_eq] at hcond
    refine ⟨hcond.1, hcond.2, ?_⟩
    split_ifs at h ⊢ <;> exact (Option.some.inj h).symm
  · cases h

@[simp] theorem cancel_dispatch (c : Call) : c.cancel.dispatch = c.dispatch := by
  unfold Call.cancel
  split <;> rfl

theorem dispatches_handOut {cancelled : Bool} {b b' : Batch} (h : b.handOut cancelled = some b') :
    b'.dispatches = b.dispatches := by
  obtain ⟨hpending, -, rfl⟩ := handOut_eq_some h
  cases cancelled with
  | true => simp [dispatches]
  | false =>
    obtain ⟨before, c, after, hcalls, -, hissue⟩ := issueFirst_eq hpending
    rw [dispatches, dispatches, if_neg Bool.false_ne_true, hissue, hcalls]
    simp

/-! ### Calls -/

/-- The call at a place of a batch moves, with its engine: nothing comes of it yet or at all, or it
is performed. -/
inductive CallMove (b : Batch) (e : Engine) (k : Nat) : Batch → Engine → Prop
  | idle {c : Call} {status : CallStatus} {e' : Engine} :
      b.calls[k]? = some c → c.isInFlight → e.Alike e' → (∀ handle, status ≠ .done (.ok handle)) →
      CallMove b e k (b.setStatus k status) e'
  | performed {c : Call} {e' : Engine} :
      b.calls[k]? = some c → c.isInFlight → e.Alike e' →
      CallMove b e k (b.setStatus k (.done (c.dispatch.perform e').2)) (c.dispatch.perform e').1

theorem callMove_start {b b' : Batch} {e e' : Engine} {k now : Nat}
    (h : b.start k now e = some (b', e')) : b.CallMove e k b' e' := by
  unfold start at h
  split at h
  · next dispatch hcall =>
    have halike := e.alike_count dispatch.kind
    dsimp only at h
    split_ifs at h
    · cases h
      exact .performed hcall rfl halike
    · cases h
      exact .idle hcall rfl halike (by simp)
    · cases h
      exact .idle hcall rfl halike (by simp)
  · cases h

theorem callMove_settle {b b' : Batch} {e e' : Engine} {k now : Nat}
    (h : b.settle k now e = some (b', e')) : b.CallMove e k b' e' := by
  unfold settle at h
  split at h
  · next dispatch due givenUp hcall =>
    split_ifs at h
    · cases h
      exact .idle hcall rfl (.refl e) (by simp)
    · cases h
      exact .performed hcall rfl (.refl e)
  · cases h

/-- A call leaves the nodes as they are. -/
theorem CallMove.sameNodes {b b' : Batch} {e e' : Engine} {k : Nat} (h : b.CallMove e k b' e') :
    e.SameNodes e' := by
  cases h with
  | idle _ _ halike _ => exact halike.sameNodes
  | performed _ _ halike => exact halike.sameNodes.trans (Engine.sameNodes_perform ..)

theorem CallMove.dispatches {b b' : Batch} {e e' : Engine} {k : Nat} (h : b.CallMove e k b' e') :
    b'.dispatches = b.dispatches := by
  cases h <;> exact dispatches_setStatus ..

theorem CallMove.inFlight {b b' : Batch} {e e' : Engine} {k : Nat} (h : b.CallMove e k b' e') :
    ∃ c ∈ b.calls, c.isInFlight := by
  cases h with
  | idle hcall hflight _ _ => exact ⟨_, List.mem_of_getElem? hcall, hflight⟩
  | performed hcall hflight _ => exact ⟨_, List.mem_of_getElem? hcall, hflight⟩

/-! ### Outcomes -/

theorem outcomes_dispatches_of_all {calls : List Call} (h : calls.all Call.isDone) :
    (calls.filterMap Call.outcome?).map (·.dispatch) = calls.map (·.dispatch) := by
  induction calls with
  | nil => rfl
  | cons c rest ih =>
    rw [List.all_cons, Bool.and_eq_true] at h
    obtain ⟨dispatch, status⟩ := c
    cases status with
    | done result => simpa [Call.outcome?] using ih h.2
    | _ => cases h.1

/-- When all calls are over there is an outcome for each. -/
theorem outcomes_dispatches {b : Batch} (h : b.isDone) :
    b.outcomes.map (·.dispatch) = b.dispatches :=
  outcomes_dispatches_of_all h

end Batch

end FleetControl
