import FleetControl.Proofs.Dispatch.Calls

/-!
# What comes of a dispatch

A call is given up when its node takes longer than the time limit, and refused when its node fails.
Neither depends on what else the engine is doing: as long as the nodes stay as they are
(`Engine.SameNodes`), what comes of a dispatch is settled beforehand, up to the handle of the
container (`Engine.verdict`). A batch that is not cancelled comes to just that, in whatever order its
calls begin and end (`Batch.Foreseen.outcomes`).
-/

namespace FleetControl

/-- The result of a call without the handle. -/
def bareResult (result : Except DispatchError String) : Except DispatchError String :=
  result.map fun _ => ""

/-- The outcome without the handle. -/
def Outcome.bare (o : Outcome) : Outcome := { o with result := bareResult o.result }

namespace Engine

variable {e e' : Engine}

theorem SameNodes.latencyOf (h : e.SameNodes e') (nodeId : String) :
    e'.latencyOf nodeId = e.latencyOf nodeId := by
  rw [Engine.latencyOf, Engine.latencyOf, h.latency]

theorem SameNodes.isFailing (h : e.SameNodes e') (nodeId : String) :
    e'.isFailing nodeId = e.isFailing nodeId := by
  rw [Engine.isFailing, Engine.isFailing, h.failing]

/-- What comes of a dispatch under a time limit, without the handle. -/
def verdict (e : Engine) (timeout : Nat) (x : Dispatch) : Except DispatchError String :=
  if timeout < e.latencyOf x.nodeId then .error (.timeout timeout) else bareResult (x.perform e).2

theorem SameNodes.verdict (h : e.SameNodes e') : e'.verdict = e.verdict := by
  funext timeout x
  rw [Engine.verdict, Engine.verdict, h.latencyOf]
  refine congrArg (ite _ _) ?_
  cases x with
  | create node spec seq =>
    cases hfail : e.isFailing node.id <;>
      simp [Dispatch.perform, create, h.isFailing, hfail, bareResult, Except.map]
  | remove target stale =>
    cases hfail : e.isFailing target.nodeId <;>
      simp [Dispatch.perform, remove, h.isFailing, hfail, bareResult, Except.map]

end Engine

/-- The call has met with nothing but what is foreseen for it. -/
def Call.IsForeseen (e : Engine) (timeout : Nat) (c : Call) : Prop :=
  match c.status with
  | .pending | .issued => True
  | .running _ givenUp => givenUp = decide (timeout < e.latencyOf c.dispatch.nodeId)
  | .done result => bareResult result = e.verdict timeout c.dispatch

theorem Call.isForeseen_done {e : Engine} {timeout : Nat} {x : Dispatch}
    {result : Except DispatchError String} :
    IsForeseen e timeout ⟨x, .done result⟩ ↔ bareResult result = e.verdict timeout x := Iff.rfl

namespace Batch

/-- The calls have met with nothing but what is foreseen for them. -/
structure Foreseen (e : Engine) (timeout : Nat) (b : Batch) : Prop where
  limit : b.timeout = timeout
  calls : ∀ c ∈ b.calls, c.IsForeseen e timeout

variable {e e' : Engine} {timeout now k : Nat} {b b' : Batch}

theorem Foreseen.congr (h : b.Foreseen e timeout) (hsame : e.SameNodes e') :
    b.Foreseen e' timeout := by
  refine ⟨h.limit, fun c hc => ?_⟩
  have hcall := h.calls c hc
  unfold Call.IsForeseen at hcall ⊢
  rwa [hsame.latencyOf, hsame.verdict]

theorem foreseen_ofPlan (e : Engine) (limit timeout : Nat) (plan : List Dispatch) :
    (ofPlan limit timeout plan).Foreseen e timeout := by
  refine ⟨rfl, fun c hc => ?_⟩
  obtain ⟨x, -, rfl⟩ := List.mem_map.1 hc
  trivial

/-- One call is replaced by another. -/
theorem Foreseen.replace (h : b.Foreseen e timeout) (hlimit : b'.timeout = b.timeout)
    {before after : List Call} {c c' : Call} (hcalls : b.calls = before ++ c :: after)
    (hcalls' : b'.calls = before ++ c' :: after) (hc' : c'.IsForeseen e timeout) :
    b'.Foreseen e timeout := by
  refine ⟨hlimit.trans h.limit, ?_⟩
  have hall := h.calls
  rw [hcalls] at hall
  rw [hcalls']
  simp only [List.mem_append, List.mem_cons] at hall ⊢
  rintro c'' (hmem | rfl | hmem)
  · exact hall c'' (.inl hmem)
  · exact hc'
  · exact hall c'' (.inr (.inr hmem))

theorem Foreseen.setStatus (h : b.Foreseen e timeout) {c : Call} (hc : b.calls[k]? = some c)
    {status : CallStatus} (hstatus : Call.IsForeseen e timeout { c with status }) :
    (b.setStatus k status).Foreseen e timeout := by
  obtain ⟨before, after, hcalls, hset⟩ := setStatus_calls hc status
  exact h.replace rfl hcalls hset hstatus

theorem Foreseen.handOut (h : b.Foreseen e timeout) (hout : b.handOut false = some b') :
    b'.Foreseen e timeout := by
  obtain ⟨hpending, -, rfl⟩ := handOut_eq_some hout
  obtain ⟨before, ⟨x, status⟩, after, hcalls, hstatus, hissue⟩ := issueFirst_eq hpending
  have hissued : Call.IsForeseen e timeout ⟨x, .issued⟩ := trivial
  exact h.replace rfl hcalls (by rw [if_neg Bool.false_ne_true, hissue]) hissued

/-- A call begins, and is given up if its node takes longer than the time limit. Unless it is over
at once, it is due when the shorter of the two times is over. -/
theorem start_foreseen (h : b.start k now e = some (b', e')) :
    ∃ x status, b.calls[k]? = some ⟨x, .issued⟩ ∧ b' = b.setStatus k status ∧
      Call.hasBegun ⟨x, status⟩ ∧ Call.IsForeseen e b.timeout ⟨x, status⟩ ∧
      ∀ due givenUp, status = .running due givenUp →
        due = now + min (e.latencyOf x.nodeId) b.timeout := by
  unfold Batch.start at h
  split at h
  · next x hx =>
    have hcount := (e.alike_count x.kind).sameNodes
    have hlatency := hcount.latencyOf x.nodeId
    have hverdict := congrFun (congrFun hcount.verdict b.timeout) x
    dsimp only at h
    rw [hlatency] at h
    split_ifs at h with hzero hnone
    · -- a call without latency is performed at once
      cases h
      refine ⟨x, _, hx, rfl, rfl, Call.isForeseen_done.2 ?_, by simp⟩
      rw [← hverdict, Engine.verdict, hlatency, hzero, if_neg (Nat.not_lt_zero _)]
    · cases h
      refine ⟨x, _, hx, rfl, rfl, Call.isForeseen_done.2 ?_, by simp⟩
      rw [Engine.verdict, if_pos (hnone ▸ Nat.pos_of_ne_zero hzero), hnone]
      rfl
    · cases h
      refine ⟨x, _, hx, rfl, rfl, rfl, ?_⟩
      rintro due givenUp ⟨⟩
      rfl
  · cases h

/-- A call ends that is due: it is performed unless it was given up. -/
theorem settle_foreseen (h : b.settle k now e = some (b', e')) :
    ∃ x due givenUp result, b.calls[k]? = some ⟨x, .running due givenUp⟩ ∧ due ≤ now ∧
      b' = b.setStatus k (.done result) ∧ result ≠ .error .cancelled ∧
      (Call.IsForeseen e b.timeout ⟨x, .running due givenUp⟩ →
        Call.IsForeseen e b.timeout ⟨x, .done result⟩) := by
  unfold Batch.settle at h
  split at h
  · next x due givenUp hx =>
    split_ifs at h with hdue hlate
    · cases h
      refine ⟨x, due, givenUp, _, hx, Nat.le_of_not_lt hdue, rfl, by simp, fun hgiven => ?_⟩
      have hlong : givenUp = decide (b.timeout < e.latencyOf x.nodeId) := hgiven
      refine Call.isForeseen_done.2 ?_
      rw [Engine.verdict, if_pos (of_decide_eq_true (hlong ▸ hlate))]
      rfl
    · cases h
      refine ⟨x, due, givenUp, _, hx, Nat.le_of_not_lt hdue, rfl, x.perform_ne_cancelled e,
        fun hgiven => ?_⟩
      have hlong : givenUp = decide (b.timeout < e.latencyOf x.nodeId) := hgiven
      refine Call.isForeseen_done.2 ?_
      rw [Engine.verdict, if_neg (by simpa [hlong] using hlate)]
      rfl
  · cases h

theorem Foreseen.start (h : b.Foreseen e timeout) (hcall : b.start k now e = some (b', e')) :
    b'.Foreseen e timeout := by
  obtain ⟨x, status, hx, rfl, -, hstatus, -⟩ := start_foreseen hcall
  exact h.setStatus hx (h.limit ▸ hstatus)

theorem Foreseen.settle (h : b.Foreseen e timeout) (hcall : b.settle k now e = some (b', e')) :
    b'.Foreseen e timeout := by
  obtain ⟨x, due, givenUp, result, hx, -, rfl, -, hresult⟩ := settle_foreseen hcall
  have hgiven := h.calls _ (List.mem_of_getElem? hx)
  exact h.setStatus hx (h.limit ▸ hresult (h.limit ▸ hgiven))

theorem outcomes_bare_of_all {v : Dispatch → Except DispatchError String} {calls : List Call}
    (hdone : calls.all Call.isDone)
    (h : ∀ c ∈ calls, ∀ result, c.status = .done result → bareResult result = v c.dispatch) :
    (calls.filterMap Call.outcome?).map Outcome.bare = calls.map fun c => ⟨c.dispatch, v c.dispatch⟩ := by
  induction calls with
  | nil => rfl
  | cons c rest ih =>
    rw [List.all_cons, Bool.and_eq_true] at hdone
    obtain ⟨x, status⟩ := c
    cases status with
    | done result =>
      have hrest := ih hdone.2 fun c hc => h c (List.mem_cons_of_mem _ hc)
      have hresult := h _ List.mem_cons_self result rfl
      rw [List.map_cons, ← hrest, ← hresult]
      rfl
    | _ => cases hdone.1

/-- **A batch comes to what is foreseen**, in whatever order its calls begin and end. -/
theorem Foreseen.outcomes (h : b.Foreseen e timeout) (hdone : b.isDone) :
    b.outcomes.map Outcome.bare = b.dispatches.map fun x => ⟨x, e.verdict timeout x⟩ := by
  rw [dispatches, List.map_map]
  refine outcomes_bare_of_all hdone fun c hc result hresult => ?_
  have hcall := h.calls c hc
  rwa [Call.IsForeseen, hresult] at hcall

end Batch

end FleetControl
