import FleetControl.Proofs.Dispatch.Calm
import Mathlib.Algebra.Order.BigOperators.Group.List

/-!
# The calls of a batch

What moves do to the single calls of a batch. A call is handed out, begins and ends, and one that is
over stays as it is (`Batch.Keeps`).

* `Batch.start_eq_some`, `Batch.settle_eq_some` : how a call begins and ends;
* `Batch.Uncancelled` : in a batch that is not cancelled calls begin one at a time, each once;
* `Batch.Move.weight_lt` : a move on any engine at all brings a batch closer to its end.
-/

namespace FleetControl

namespace Call

/-- The call was given a permit. -/
def isHandedOut (c : Call) : Bool :=
  match c.status with
  | .pending | .done (.error .cancelled) => false
  | _ => true

theorem isHandedOut_of_isInFlight {c : Call} (h : c.isInFlight) : c.isHandedOut := by
  obtain ⟨dispatch, status⟩ := c
  cases status <;> first | rfl | cases h

theorem isHandedOut_of_cancel {c : Call} (h : c.cancel.isHandedOut) : c.isHandedOut := by
  obtain ⟨dispatch, status⟩ := c
  cases status <;> exact h

/-- The call has begun, or is over. -/
def hasBegun (c : Call) : Bool := c.status matches .running .. | .done _

/-- The call was cancelled before it was made. -/
def isCancelled (c : Call) : Bool := c.status matches .done (.error .cancelled)

theorem isCancelled_done (x : Dispatch) {result : Except DispatchError String}
    (h : result ≠ .error .cancelled) : isCancelled ⟨x, .done result⟩ = false := by
  cases result with
  | ok handle => rfl
  | error e => cases e <;> first | rfl | exact absurd rfl h

theorem weight_of_hasBegun {c : Call} (h : c.hasBegun) : c.weight ≤ 1 := by
  obtain ⟨dispatch, status⟩ := c
  cases status with
  | running due givenUp => exact Nat.le_refl 1
  | done result => exact Nat.zero_le 1
  | _ => cases h

theorem weight_cancel_le (c : Call) : c.cancel.weight ≤ c.weight := by
  obtain ⟨dispatch, status⟩ := c
  cases status <;> first | exact Nat.zero_le _ | exact Nat.le_refl _

end Call

theorem Dispatch.perform_ne_cancelled (x : Dispatch) (e : Engine) :
    (x.perform e).2 ≠ .error .cancelled := by
  cases x with
  | create node spec seq =>
    unfold Dispatch.perform
    dsimp only
    split <;> simp
  | remove target stale =>
    unfold Dispatch.perform
    dsimp only
    split <;> simp

namespace Batch

/-! ### Single calls -/

theorem setStatus_getElem? (b : Batch) (k k' : Nat) (status : CallStatus) :
    (b.setStatus k status).calls[k']? =
      if k = k' then (b.calls[k']?).map fun c => { c with status } else b.calls[k']? := by
  rw [setStatus, List.getElem?_modify]
  split
  · rfl
  · exact Option.map_id' ..

theorem CallMove.called {b b' : Batch} {e e' : Engine} {k : Nat} (h : b.CallMove e k b' e') :
    ∃ c status, b.calls[k]? = some c ∧ c.isInFlight ∧ b' = b.setStatus k status := by
  cases h with
  | idle hcall hflight _ _ => exact ⟨_, _, hcall, hflight, rfl⟩
  | performed hcall hflight _ => exact ⟨_, _, hcall, hflight, rfl⟩

/-- A call that moves was handed out before. -/
theorem CallMove.handedOut {b b' : Batch} {e e' : Engine} {k k' : Nat} (h : b.CallMove e k b' e')
    {c' : Call} (hc : b'.calls[k']? = some c') (hout : c'.isHandedOut) :
    ∃ c, b.calls[k']? = some c ∧ c.isHandedOut := by
  obtain ⟨c, status, hcall, hflight, rfl⟩ := h.called
  rw [setStatus_getElem?] at hc
  split at hc
  · next hk => exact ⟨c, hk ▸ hcall, Call.isHandedOut_of_isInFlight hflight⟩
  · exact ⟨c', hc, hout⟩

/-- Calls that are over stay as they are. -/
def Keeps (b b' : Batch) : Prop :=
  ∀ (k : Nat) (c : Call), b.calls[k]? = some c → c.isDone → b'.calls[k]? = some c

theorem Keeps.refl (b : Batch) : b.Keeps b := fun _ _ hc _ => hc

theorem issueFirst_getElem? {calls : List Call} {k : Nat} {c : Call} (h : calls[k]? = some c) :
    (issueFirst calls)[k]? = some c ∨
      c.status = .pending ∧ (issueFirst calls)[k]? = some { c with status := .issued } := by
  induction calls generalizing k with
  | nil => cases h
  | cons head rest ih =>
    by_cases hhead : head.isPending
    · rw [issueFirst, if_pos hhead]
      cases k with
      | zero =>
        cases h
        obtain ⟨dispatch, status⟩ := c
        cases status <;> first | exact .inr ⟨rfl, rfl⟩ | cases hhead
      | succ k => exact .inl h
    · rw [issueFirst, if_neg hhead]
      cases k with
      | zero => exact .inl h
      | succ k => exact ih h

theorem keeps_handOut {cancelled : Bool} {b b' : Batch} (h : b.handOut cancelled = some b') :
    b.Keeps b' := by
  obtain ⟨-, -, rfl⟩ := handOut_eq_some h
  rintro k ⟨dispatch, status⟩ hc hdone
  cases status with
  | done result =>
    cases cancelled with
    | true =>
      rw [if_pos rfl, List.getElem?_map, hc]
      rfl
    | false =>
      rw [if_neg Bool.false_ne_true]
      exact (issueFirst_getElem? hc).resolve_right fun ⟨hstatus, _⟩ => by cases hstatus
  | _ => cases hdone

theorem CallMove.keeps {b b' : Batch} {e e' : Engine} {k : Nat} (h : b.CallMove e k b' e') :
    b.Keeps b' := by
  obtain ⟨c, status, hcall, hflight, rfl⟩ := h.called
  intro k' c' hc' hdone
  rw [setStatus_getElem?, if_neg, hc']
  rintro rfl
  cases hcall.symm.trans hc'
  obtain ⟨dispatch, status⟩ := c
  cases status with
  | pending => cases hdone
  | issued => cases hdone
  | running due givenUp => cases hdone
  | done result => cases hflight

theorem handOut_of_isDone {b : Batch} (h : b.isDone) (cancelled : Bool) :
    b.handOut cancelled = none := by
  have hpending : b.calls.any Call.isPending = false := by
    rw [List.any_eq_false]
    intro c hc hpending
    have hdone := List.all_eq_true.1 h c hc
    obtain ⟨dispatch, status⟩ := c
    cases status with
    | done result => cases hpending
    | _ => cases hdone
  rw [handOut, hpending]
  rfl

/-! ### How a call begins and ends -/

/-- A call begins that has a permit. It may be over at once. -/
theorem start_eq_some {b b' : Batch} {e e' : Engine} {k now : Nat}
    (h : b.start k now e = some (b', e')) :
    ∃ x status, b.calls[k]? = some ⟨x, .issued⟩ ∧ b' = b.setStatus k status ∧
      Call.hasBegun ⟨x, status⟩ ∧ Call.isCancelled ⟨x, status⟩ = false := by
  unfold start at h
  split at h
  · next x hcall =>
    dsimp only at h
    split_ifs at h
    · cases h
      exact ⟨x, _, hcall, rfl, rfl, Call.isCancelled_done x (x.perform_ne_cancelled _)⟩
    · cases h
      exact ⟨x, _, hcall, rfl, rfl, rfl⟩
    · cases h
      exact ⟨x, _, hcall, rfl, rfl, rfl⟩
  · cases h

/-- A call ends that has begun: it was given up, or is performed. -/
theorem settle_eq_some {b b' : Batch} {e e' : Engine} {k now : Nat}
    (h : b.settle k now e = some (b', e')) :
    ∃ x due givenUp result, b.calls[k]? = some ⟨x, .running due givenUp⟩ ∧
      b' = b.setStatus k (.done result) ∧ Call.isCancelled ⟨x, .done result⟩ = false := by
  unfold settle at h
  split at h
  · next x due givenUp hcall =>
    split_ifs at h
    · cases h
      exact ⟨x, due, givenUp, _, hcall, rfl, rfl⟩
    · cases h
      exact ⟨x, due, givenUp, _, hcall, rfl, Call.isCancelled_done x (x.perform_ne_cancelled _)⟩
  · cases h

theorem weight_replace {b b' : Batch} {before after : List Call} {c c' : Call}
    (hcalls : b.calls = before ++ c :: after) (hcalls' : b'.calls = before ++ c' :: after)
    (h : c'.weight < c.weight) : b'.weight < b.weight := by
  rw [weight, weight, hcalls, hcalls']
  simp only [List.map_append, List.map_cons, List.sum_append, List.sum_cons]
  omega

/-- Handing out brings the batch closer to its end, also when it is cancelled. -/
theorem handOut_weight_lt {cancelled : Bool} {b b' : Batch} (h : b.handOut cancelled = some b') :
    b'.weight < b.weight ∧ b'.permits = b.permits := by
  obtain ⟨hpending, -, rfl⟩ := handOut_eq_some h
  refine ⟨?_, rfl⟩
  cases cancelled with
  | true =>
    obtain ⟨c, hc, hcall⟩ := List.any_eq_true.1 hpending
    rw [if_pos rfl, weight, weight, List.map_map]
    refine List.sum_lt_sum _ _ (fun c _ => c.weight_cancel_le) ⟨c, hc, ?_⟩
    obtain ⟨dispatch, status⟩ := c
    cases status <;> first | exact Nat.zero_lt_succ 2 | cases hcall
  | false =>
    obtain ⟨before, ⟨x, status⟩, after, hcalls, hstatus, hissue⟩ := issueFirst_eq hpending
    cases hstatus
    exact weight_replace hcalls hissue (show 2 < 3 by omega)

/-- A move on any engine brings the batch closer to its end. -/
theorem Move.weight_lt {now : Nat} {e : Engine} {b b' : Batch} (h : b.Move now e b') :
    b'.weight < b.weight ∧ b'.permits = b.permits := by
  cases h with
  | handOut hhand => exact handOut_weight_lt hhand
  | start hstart =>
    obtain ⟨x, status, hcall, rfl, hbegun, -⟩ := start_eq_some hstart
    obtain ⟨before, after, hcalls, hset⟩ := setStatus_calls hcall status
    exact ⟨weight_replace hcalls hset (Nat.lt_succ_of_le (Call.weight_of_hasBegun hbegun)), rfl⟩
  | settle hsettle =>
    obtain ⟨x, due, givenUp, result, hcall, rfl, -⟩ := settle_eq_some hsettle
    obtain ⟨before, after, hcalls, hset⟩ := setStatus_calls hcall (.done result)
    exact ⟨weight_replace hcalls hset (show 0 < 1 by omega), rfl⟩

/-! ### Batches that are not cancelled -/

/-- The call at a place of the batch has begun. -/
def hasBegun (b : Batch) (k : Nat) : Bool := (b.calls[k]?).any Call.hasBegun

/-- There is a permit, and no call was cancelled. -/
structure Uncancelled (b : Batch) : Prop where
  permits : 0 < b.permits
  calls : ∀ c ∈ b.calls, c.isCancelled = false

theorem uncancelled_ofPlan (limit timeout : Nat) (plan : List Dispatch) :
    (ofPlan limit timeout plan).Uncancelled := by
  refine ⟨Nat.lt_of_lt_of_le Nat.zero_lt_one (Nat.le_max_right ..), fun c hc => ?_⟩
  obtain ⟨x, -, rfl⟩ := List.mem_map.1 hc
  rfl

theorem hasBegun_ofPlan (limit timeout : Nat) (plan : List Dispatch) (k : Nat) :
    (ofPlan limit timeout plan).hasBegun k = false := by
  rw [hasBegun, ofPlan, List.getElem?_map]
  cases plan[k]? <;> rfl

/-- Handing out a permit begins no call. -/
theorem uncancelled_handOut {b b' : Batch} (h : b.handOut false = some b') (hb : b.Uncancelled) :
    b'.Uncancelled ∧ ∀ k, b'.hasBegun k = b.hasBegun k := by
  obtain ⟨hpending, -, rfl⟩ := handOut_eq_some h
  obtain ⟨before, ⟨dispatch, status⟩, after, hcalls, hstatus, hissue⟩ := issueFirst_eq hpending
  cases hstatus
  rw [if_neg Bool.false_ne_true]
  refine ⟨⟨hb.permits, fun c hc => ?_⟩, fun k => ?_⟩
  · have hold := hb.calls c
    rw [hcalls] at hold
    have hnew : c ∈ issueFirst b.calls := hc
    rw [hissue] at hnew
    rcases List.mem_append.1 hnew with hnew | hnew
    · exact hold (List.mem_append_left _ hnew)
    · rcases List.mem_cons.1 hnew with rfl | hnew
      · rfl
      · exact hold (List.mem_append_right _ (List.mem_cons_of_mem _ hnew))
  · rw [hasBegun, hasBegun, hissue, hcalls, List.getElem?_append, List.getElem?_append]
    split
    · rfl
    · cases k - before.length <;> rfl

/-- A call that goes further is of the same dispatch, and is not cancelled. -/
theorem uncancelled_setStatus {b : Batch} {k : Nat} {c : Call} (hc : b.calls[k]? = some c)
    (hb : b.Uncancelled) {status : CallStatus} (hbegun : Call.hasBegun { c with status })
    (hcancelled : Call.isCancelled { c with status } = false) :
    (b.setStatus k status).Uncancelled ∧
      ∀ k', (b.setStatus k status).hasBegun k' = (k' == k || b.hasBegun k') := by
  refine ⟨⟨hb.permits, fun c' hc' => ?_⟩, fun k' => ?_⟩
  · obtain ⟨k', hk'⟩ := List.mem_iff_getElem?.1 hc'
    rw [setStatus_getElem?] at hk'
    split at hk'
    · next heq =>
      subst heq
      rw [hc] at hk'
      cases hk'
      exact hcancelled
    · exact hb.calls c' (List.mem_of_getElem? hk')
  · rw [hasBegun, setStatus_getElem?]
    split
    · next heq =>
      subst heq
      rw [hc, beq_self_eq_true, Bool.true_or]
      exact hbegun
    · next hne =>
      rw [beq_false_of_ne (Ne.symm hne), Bool.false_or]
      rfl

/-- A call begins once. -/
theorem uncancelled_start {b b' : Batch} {e e' : Engine} {k now : Nat}
    (h : b.start k now e = some (b', e')) (hb : b.Uncancelled) :
    b.hasBegun k = false ∧ b'.Uncancelled ∧ ∀ k', b'.hasBegun k' = (k' == k || b.hasBegun k') := by
  obtain ⟨x, status, hcall, rfl, hbegun, hcancelled⟩ := start_eq_some h
  refine ⟨?_, uncancelled_setStatus hcall hb hbegun hcancelled⟩
  rw [hasBegun, hcall]
  rfl

/-- A call that ends had begun. -/
theorem uncancelled_settle {b b' : Batch} {e e' : Engine} {k now : Nat}
    (h : b.settle k now e = some (b', e')) (hb : b.Uncancelled) :
    b'.Uncancelled ∧ ∀ k', b'.hasBegun k' = b.hasBegun k' := by
  obtain ⟨x, due, givenUp, result, hcall, rfl, hcancelled⟩ := settle_eq_some h
  have hdone : Call.hasBegun ⟨x, .done result⟩ := rfl
  obtain ⟨hb', hbegun⟩ := uncancelled_setStatus hcall hb hdone hcancelled
  refine ⟨hb', fun k' => ?_⟩
  rw [hbegun]
  by_cases hk : k' = k
  · rw [hk, hasBegun, hcall]
    exact Bool.or_true _
  · rw [beq_false_of_ne hk, Bool.false_or]

/-! ### Calls still to begin -/

/-- The dispatches whose calls are still to begin. -/
def unbegun (b : Batch) : List Dispatch := (b.calls.filter fun c => !c.hasBegun).map (·.dispatch)

theorem unbegun_ofPlan (limit timeout : Nat) (plan : List Dispatch) :
    (ofPlan limit timeout plan).unbegun = plan := by
  have hall : (ofPlan limit timeout plan).calls.filter (fun c => !c.hasBegun) =
      (ofPlan limit timeout plan).calls := by
    refine List.filter_eq_self.2 fun c hc => ?_
    obtain ⟨x, -, rfl⟩ := List.mem_map.1 hc
    rfl
  rw [unbegun, hall]
  exact dispatches_ofPlan ..

theorem unbegun_cancel (calls : List Call) :
    (((calls.map Call.cancel).filter fun c => !c.hasBegun).map (·.dispatch)).Sublist
      ((calls.filter fun c => !c.hasBegun).map (·.dispatch)) := by
  induction calls with
  | nil => exact List.Sublist.refl _
  | cons c rest ih =>
    obtain ⟨x, status⟩ := c
    cases status with
    | pending => exact ih.cons _
    | issued => exact ih.cons_cons _
    | running due givenUp => exact ih
    | done result => exact ih

/-- Handing out begins no call. -/
theorem unbegun_handOut {cancelled : Bool} {b b' : Batch} (h : b.handOut cancelled = some b') :
    b'.unbegun.Sublist b.unbegun := by
  obtain ⟨hpending, -, rfl⟩ := handOut_eq_some h
  cases cancelled with
  | true => exact unbegun_cancel b.calls
  | false =>
    obtain ⟨before, ⟨x, status⟩, after, hcalls, hstatus, hissue⟩ := issueFirst_eq hpending
    cases hstatus
    have hpending : Call.hasBegun ⟨x, .pending⟩ = false := rfl
    have hissued : Call.hasBegun ⟨x, .issued⟩ = false := rfl
    rw [if_neg Bool.false_ne_true, unbegun, unbegun, hissue, hcalls]
    simp only [List.filter_append, List.filter_cons, hpending, hissued, Bool.not_false, if_true,
      List.map_append, List.map_cons]
    exact List.Sublist.refl _

/-- A call that begins is no longer to begin. -/
theorem unbegun_start {b b' : Batch} {e e' : Engine} {k now : Nat}
    (h : b.start k now e = some (b', e')) :
    ∃ x, (b.calls[k]?).map (·.dispatch) = some x ∧ (x :: b'.unbegun).Perm b.unbegun := by
  obtain ⟨x, status, hcall, rfl, hbegun, -⟩ := start_eq_some h
  obtain ⟨before, after, hcalls, hset⟩ := setStatus_calls hcall status
  refine ⟨x, by rw [hcall]; rfl, ?_⟩
  have hissued : Call.hasBegun ⟨x, .issued⟩ = false := rfl
  simp only [unbegun, hcalls, hset, List.filter_append, List.filter_cons, hissued, hbegun,
    Bool.not_false, Bool.not_true, if_true, Bool.false_eq_true, if_false, List.map_append,
    List.map_cons]
  exact List.perm_middle.symm

/-- A call that ends had begun. -/
theorem unbegun_settle {b b' : Batch} {e e' : Engine} {k now : Nat}
    (h : b.settle k now e = some (b', e')) : b'.unbegun = b.unbegun := by
  obtain ⟨x, due, givenUp, result, hcall, rfl, -⟩ := settle_eq_some h
  obtain ⟨before, after, hcalls, hset⟩ := setStatus_calls hcall (.done result)
  have hrunning : Call.hasBegun ⟨x, .running due givenUp⟩ = true := rfl
  have hdone : Call.hasBegun ⟨x, .done result⟩ = true := rfl
  simp only [unbegun, hcalls, hset, List.filter_append, List.filter_cons, hrunning, hdone,
    Bool.not_true, Bool.false_eq_true, if_false]

theorem hasBegun_of_isDone {b : Batch} (h : b.isDone) (k : Nat) :
    b.hasBegun k = decide (k < b.calls.length) := by
  rw [hasBegun]
  by_cases hk : k < b.calls.length
  · have hdone := List.all_eq_true.1 h _ (List.getElem_mem hk)
    rw [List.getElem?_eq_getElem hk, decide_eq_true hk, Option.any_some]
    generalize b.calls[k] = c at hdone
    obtain ⟨dispatch, status⟩ := c
    cases status <;> first | rfl | cases hdone
  · rw [List.getElem?_eq_none (Nat.le_of_not_lt hk), decide_eq_false hk]
    rfl

theorem outcomes_getElem?_of_all {calls : List Call} (h : calls.all Call.isDone) {k : Nat}
    {o : Outcome} (ho : (calls.filterMap Call.outcome?)[k]? = some o) :
    calls[k]? = some ⟨o.dispatch, .done o.result⟩ := by
  induction calls generalizing k with
  | nil => cases ho
  | cons c rest ih =>
    rw [List.all_cons, Bool.and_eq_true] at h
    obtain ⟨dispatch, status⟩ := c
    cases status with
    | done result =>
      cases k with
      | zero =>
        cases ho
        rfl
      | succ k => exact ih h.2 ho
    | _ => cases h.1

/-- When all calls are over, the outcomes are in the places of the calls. -/
theorem outcomes_getElem? {b : Batch} (h : b.isDone) {k : Nat} {o : Outcome}
    (ho : b.outcomes[k]? = some o) : b.calls[k]? = some ⟨o.dispatch, .done o.result⟩ :=
  outcomes_getElem?_of_all h ho

end Batch

end FleetControl
