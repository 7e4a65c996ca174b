import FleetControl.Proofs.Dispatch.Verdict

/-!
# Nodes answer for themselves

What comes of a dispatch is settled by its own node (`Engine.verdict_eq`): it is given up if the node
takes longer than the time limit, refused if the node fails, and otherwise done. So engines that
agree on all nodes but one (`Engine.AgreeOff`) give the same outcomes on all nodes but that one, in
the places of the plan (`Outcome.bare_eq_off`).
-/

namespace FleetControl

/-- With what a failing node refuses the dispatch. -/
def Dispatch.refusal : Dispatch → EngineError
  | .create node spec _ => .refusedCreate node.id spec.image
  | .remove target _ => .refusedRemove target.nodeId target.handle

namespace Engine

variable {e e' : Engine} {x : String} {timeout : Nat} {y : Dispatch}

/-- What comes of a dispatch depends on its node alone. -/
theorem verdict_eq (e : Engine) (timeout : Nat) (y : Dispatch) : e.verdict timeout y =
    if timeout < e.latencyOf y.nodeId then .error (.timeout timeout)
    else if e.isFailing y.nodeId then .error (.engine y.refusal) else .ok "" := by
  rw [verdict]
  refine congrArg (ite _ _) ?_
  cases y with
  | create node spec seq =>
    cases hfail : e.isFailing node.id <;>
      simp [Dispatch.perform, create, hfail, bareResult, Except.map, Dispatch.nodeId,
        Dispatch.refusal]
  | remove target stale =>
    cases hfail : e.isFailing target.nodeId <;>
      simp [Dispatch.perform, remove, hfail, bareResult, Except.map, Dispatch.nodeId,
        Dispatch.refusal]

/-- On all nodes but one the engines fail alike and take the same time. -/
structure AgreeOff (x : String) (e e' : Engine) : Prop where
  failing : ∀ nodeId, nodeId ≠ x → e'.isFailing nodeId = e.isFailing nodeId
  latency : ∀ nodeId, nodeId ≠ x → e'.latencyOf nodeId = e.latencyOf nodeId

/-- A node that begins to fail concerns itself. -/
theorem agreeOff_fail (e : Engine) (x : String) : e.AgreeOff x (e.fail x) where
  failing := fun nodeId hne => by
    unfold isFailing fail
    split
    · rfl
    · simp [hne]
  latency := fun nodeId _ => by
    unfold latencyOf fail
    split <;> rfl

theorem AgreeOff.verdict (h : e.AgreeOff x e') (hne : y.nodeId ≠ x) :
    e'.verdict timeout y = e.verdict timeout y := by
  rw [verdict_eq, verdict_eq, h.failing _ hne, h.latency _ hne]

end Engine

namespace Outcome

variable {e e' : Engine} {x : String} {timeout k : Nat} {plan : List Dispatch}
  {outs outs' : List Outcome} {o o' : Outcome}

/-- The dispatch came to what its node does with it: it is given up if the node takes longer than the
time limit, and otherwise refused if the node fails and done if it does not. -/
structure Judged (e : Engine) (timeout : Nat) (o : Outcome) : Prop where
  succeeds : (∃ handle, o.result = .ok handle) ↔
    e.isFailing o.dispatch.nodeId = false ∧ e.latencyOf o.dispatch.nodeId ≤ timeout
  refused : o.result = .error (.engine o.dispatch.refusal) ↔
    e.isFailing o.dispatch.nodeId = true ∧ e.latencyOf o.dispatch.nodeId ≤ timeout
  givenUp : o.result = .error (.timeout timeout) ↔ timeout < e.latencyOf o.dispatch.nodeId

theorem judged_of_verdict (h : bareResult o.result = e.verdict timeout o.dispatch) :
    o.Judged e timeout := by
  obtain ⟨y, result⟩ := o
  rw [Engine.verdict_eq] at h
  dsimp only at h
  split at h
  · next hlate =>
    -- given up
    cases result with
    | ok handle => cases h
    | error error =>
      cases h
      exact ⟨by simp [Nat.not_le.2 hlate], by simp [Nat.not_le.2 hlate], by simp [hlate]⟩
  · next hlate =>
    have hle := Nat.le_of_not_lt hlate
    split at h
    · next hfail =>
      cases result with
      | ok handle => cases h
      | error error =>
        cases h
        exact ⟨by simp [hfail], by simp [hfail, hle], by simp [hle]⟩
    · next hfail =>
      cases result with
      | ok handle => exact ⟨by simp [hfail, hle], by simp [hfail], by simp [hle]⟩
      | error error => cases h

/-- The outcomes of a plan are known in each place. -/
theorem bare_getElem? {v : Dispatch → Except DispatchError String}
    (h : outs.map bare = plan.map fun y => ⟨y, v y⟩) (ho : outs[k]? = some o) :
    plan[k]? = some o.dispatch ∧ bareResult o.result = v o.dispatch := by
  have hk := congrArg (·[k]?) h
  simp only [List.getElem?_map, ho, Option.map_some] at hk
  obtain ⟨y, hy, heq⟩ := Option.map_eq_some_iff.1 hk.symm
  obtain ⟨hsame, hresult⟩ := Outcome.mk.inj heq
  exact ⟨hsame ▸ hy, hsame ▸ hresult.symm⟩

/-- **The outcomes on other nodes are the same**, in the places of the plan. -/
theorem bare_eq_off (hagree : e.AgreeOff x e')
    (h : outs.map bare = plan.map fun y => ⟨y, e.verdict timeout y⟩)
    (h' : outs'.map bare = plan.map fun y => ⟨y, e'.verdict timeout y⟩)
    (ho : outs[k]? = some o) (ho' : outs'[k]? = some o') (hne : o.dispatch.nodeId ≠ x) :
    o.bare = o'.bare := by
  obtain ⟨hy, hresult⟩ := bare_getElem? h ho
  obtain ⟨hy', hresult'⟩ := bare_getElem? h' ho'
  have hsame : o.dispatch = o'.dispatch := Option.some.inj (hy.symm.trans hy')
  rw [bare, bare, hresult, hresult', ← hsame, hagree.verdict hne]

/-- The outcomes on other nodes, in the order of the plan. -/
def off (x : String) (outs : List Outcome) : List Outcome :=
  outs.filter (·.dispatch.nodeId != x)

theorem map_bare_off (x : String) (outs : List Outcome) :
    (off x outs).map bare = off x (outs.map bare) := by
  rw [off, off, List.filter_map]
  rfl

theorem off_eq (hagree : e.AgreeOff x e')
    (h : outs.map bare = plan.map fun y => ⟨y, e.verdict timeout y⟩)
    (h' : outs'.map bare = plan.map fun y => ⟨y, e'.verdict timeout y⟩) :
    (off x outs).map bare = (off x outs').map bare := by
  rw [map_bare_off, map_bare_off, h, h', off, off, List.filter_map, List.filter_map]
  refine List.map_congr_left fun y hy => ?_
  have hne : y.nodeId ≠ x := by simpa using (List.mem_filter.1 hy).2
  rw [hagree.verdict hne]

end Outcome

end FleetControl
