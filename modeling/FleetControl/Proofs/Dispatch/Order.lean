import FleetControl.Proofs.Dispatch.Calls
import FleetControl.Proofs.Dispatch.Verdict

/-!
# In which order the calls of a batch are handed out

The dispatches of a batch are handed out in the order of the plan: at any time the first `m` calls
were handed out, and those behind them all wait or were all cancelled (`Batch.Ordered`). What a move
can be is said once (`Batch.Advances`), and from it that

* calls are handed out in the order of the plan (`Batch.Ordered.advances`);
* no more calls are in flight than there are permits (`Batch.Advances.inFlight_le`);
* calls that were handed out come to what is foreseen for them (`Batch.Owned`), so the outcomes of a
  batch are that for the first `m` dispatches, and cancellations for the others
  (`Batch.Ordered.outcomes`).
-/

namespace FleetControl

namespace Call

variable {c : Call}

/-- The call has begun; it was not cancelled. -/
def hasStarted (c : Call) : Bool := c.hasBegun && !c.isCancelled

theorem isHandedOut_iff : c.isHandedOut ↔ c.isPending = false ∧ c.isCancelled = false := by
  obtain ⟨x, status⟩ := c
  cases status with
  | done result =>
    cases result with
    | ok handle => simp [isHandedOut, isPending, isCancelled]
    | error e => cases e <;> simp [isHandedOut, isPending, isCancelled]
  | _ => simp [isHandedOut, isPending, isCancelled]

theorem isHandedOut_of_hasStarted (h : c.hasStarted) : c.isHandedOut := by
  rw [hasStarted, Bool.and_eq_true, Bool.not_eq_true'] at h
  refine isHandedOut_iff.2 ⟨?_, h.2⟩
  obtain ⟨x, status⟩ := c
  cases status <;> first | rfl | cases h.1

theorem hasStarted_done (x : Dispatch) {result : Except DispatchError String}
    (h : result ≠ .error .cancelled) : hasStarted ⟨x, .done result⟩ := by
  rw [hasStarted, isCancelled_done x h]
  rfl

/-- Only a call that is pending is cancelled. -/
theorem cancel_eq (c : Call) : c.isPending = false ∧ c.cancel = c ∨
    c.isPending ∧ c.cancel = { c with status := .done (.error .cancelled) } := by
  unfold cancel
  by_cases h : c.isPending
  · exact .inr ⟨h, if_pos h⟩
  · exact .inl ⟨by simpa using h, if_neg h⟩

end Call

theorem Engine.verdict_ne_cancelled (e : Engine) (timeout : Nat) (x : Dispatch) :
    e.verdict timeout x ≠ .error .cancelled := by
  unfold Engine.verdict
  split
  · simp
  · intro h
    unfold bareResult at h
    cases hresult : (x.perform e).2 with
    | ok handle => simp [hresult, Except.map] at h
    | error error =>
      rw [hresult] at h
      exact x.perform_ne_cancelled e (hresult.trans h)

/-- What is foreseen is no cancellation. -/
theorem Call.IsForeseen.not_cancelled {e : Engine} {timeout : Nat} {c : Call}
    (h : c.IsForeseen e timeout) : c.isCancelled = false := by
  obtain ⟨x, status⟩ := c
  cases status with
  | done result =>
    refine Call.isCancelled_done x ?_
    rintro rfl
    exact e.verdict_ne_cancelled timeout x h.symm
  | _ => rfl

namespace Batch

variable {e e' : Engine} {b b' : Batch} {m m' k now : Nat} {c : Call} {place : Option Nat}

/-! ### Places -/

theorem of_setStatus {j : Nat} {status : CallStatus}
    (h : (b.setStatus j status).calls[k]? = some c) :
    k ≠ j ∧ b.calls[k]? = some c ∨
      k = j ∧ ∃ c₀, b.calls[k]? = some c₀ ∧ c = { c₀ with status } := by
  rw [setStatus_getElem?] at h
  split at h
  · next hjk =>
    obtain ⟨c₀, hc₀, rfl⟩ := Option.map_eq_some_iff.1 h
    exact .inr ⟨hjk.symm, c₀, hc₀, rfl⟩
  · next hjk => exact .inl ⟨fun hkj => hjk hkj.symm, h⟩

theorem of_map_cancel (h : (b.calls.map Call.cancel)[k]? = some c) :
    ∃ c₀, b.calls[k]? = some c₀ ∧ c = c₀.cancel := by
  rw [List.getElem?_map] at h
  obtain ⟨c₀, hc₀, rfl⟩ := Option.map_eq_some_iff.1 h
  exact ⟨c₀, hc₀, rfl⟩

@[simp] theorem length_setStatus (b : Batch) (j : Nat) (status : CallStatus) :
    (b.setStatus j status).calls.length = b.calls.length :=
  List.length_modify ..

/-- The first pending call is issued. -/
theorem issueFirst_eq_modify {calls : List Call} (hc : calls[m]? = some c) (hpending : c.isPending)
    (hfirst : ∀ j c', calls[j]? = some c' → j < m → c'.isPending = false) :
    issueFirst calls = calls.modify m fun c => { c with status := .issued } := by
  induction calls generalizing m with
  | nil => cases hc
  | cons head rest ih =>
    cases m with
    | zero =>
      cases hc
      simp [issueFirst, hpending]
    | succ m =>
      have hhead : head.isPending = false := hfirst 0 head rfl (Nat.succ_pos m)
      rw [issueFirst, hhead, if_neg Bool.false_ne_true, ih hc fun j c' hj hlt =>
        hfirst (j + 1) c' hj (Nat.succ_lt_succ hlt)]
      rfl

/-! ### Moves -/

/-- The first `m` calls were handed out; those behind them all wait, or were all cancelled. -/
structure Ordered (m : Nat) (b : Batch) : Prop where
  le : m ≤ b.calls.length
  handedOut : ∀ {k c}, b.calls[k]? = some c → k < m → c.isHandedOut
  left : ∀ {k c}, b.calls[k]? = some c → m ≤ k → c.isPending ∨ c.isCancelled
  whole : (∀ {k : Nat} {c : Call}, b.calls[k]? = some c → c.isCancelled = false) ∨
    ∀ {k : Nat} {c : Call}, b.calls[k]? = some c → c.isPending = false

/-- What a move of a batch can be of which the first `m` calls were handed out, and the place of the
call that begins by it. -/
inductive Advances (e : Engine) (now m : Nat) (b : Batch) : Option Nat → Nat → Batch → Prop
  /-- The next call is handed out. -/
  | issued {x : Dispatch} : b.calls[m]? = some ⟨x, .pending⟩ → b.inFlight < b.permits →
      Advances e now m b none (m + 1) (b.setStatus m .issued)
  /-- All calls that wait are cancelled. -/
  | cancelled : Advances e now m b none m { b with calls := b.calls.map Call.cancel }
  /-- A call begins, and is over at once or due later. -/
  | begun {k : Nat} {x : Dispatch} {status : CallStatus} : b.calls[k]? = some ⟨x, .issued⟩ →
      Call.hasStarted ⟨x, status⟩ → Call.IsForeseen e b.timeout ⟨x, status⟩ →
      (∀ due givenUp, status = .running due givenUp →
        due = now + min (e.latencyOf x.nodeId) b.timeout) →
      Advances e now m b (some k) m (b.setStatus k status)
  /-- A call ends. -/
  | ended {k : Nat} {x : Dispatch} {due : Nat} {givenUp : Bool}
      {result : Except DispatchError String} : b.calls[k]? = some ⟨x, .running due givenUp⟩ →
      result ≠ .error .cancelled →
      (Call.IsForeseen e b.timeout ⟨x, .running due givenUp⟩ →
        Call.IsForeseen e b.timeout ⟨x, .done result⟩) →
      Advances e now m b none m (b.setStatus k (.done result))

theorem ordered_ofPlan (limit timeout : Nat) (plan : List Dispatch) :
    (ofPlan limit timeout plan).Ordered 0 := by
  have hpending : ∀ {k : Nat} {c : Call}, (ofPlan limit timeout plan).calls[k]? = some c →
      c.isPending ∧ c.isCancelled = false := by
    intro k c hc
    obtain ⟨x, -, rfl⟩ := List.mem_map.1 (List.mem_of_getElem? hc)
    exact ⟨rfl, rfl⟩
  exact ⟨Nat.zero_le _, fun _ hlt => absurd hlt (Nat.not_lt_zero _),
    fun hc _ => .inl (hpending hc).1, .inl fun hc => (hpending hc).2⟩

theorem Ordered.lt (h : b.Ordered m) (hc : b.calls[k]? = some c) (hout : c.isHandedOut) :
    k < m := by
  by_contra hle
  obtain ⟨hpending, hcancelled⟩ := Call.isHandedOut_iff.1 hout
  rcases h.left hc (Nat.le_of_not_lt hle) with hleft | hleft
  · rw [hpending] at hleft
    cases hleft
  · rw [hcancelled] at hleft
    cases hleft

/-- The next call is the first that waits. -/
theorem Ordered.next (h : b.Ordered m) (hpending : b.calls.any Call.isPending) :
    ∃ x, b.calls[m]? = some ⟨x, .pending⟩ ∧
      issueFirst b.calls = b.calls.modify m fun c => { c with status := .issued } := by
  obtain ⟨c', hc', hwaits⟩ := List.any_eq_true.1 hpending
  obtain ⟨j, hj⟩ := List.mem_iff_getElem?.1 hc'
  -- where one call waits, none was cancelled
  have hnone : ∀ {k : Nat} {c : Call}, b.calls[k]? = some c → c.isCancelled = false := by
    refine h.whole.resolve_right fun hall => ?_
    rw [hall hj] at hwaits
    cases hwaits
  have hle : m ≤ j := by
    by_contra hlt
    rw [(Call.isHandedOut_iff.1 (h.handedOut hj (Nat.lt_of_not_le hlt))).1] at hwaits
    cases hwaits
  obtain ⟨hlt, -⟩ := List.getElem?_eq_some_iff.1 hj
  obtain ⟨c, hm⟩ : ∃ c, b.calls[m]? = some c :=
    ⟨_, List.getElem?_eq_getElem (Nat.lt_of_le_of_lt hle hlt)⟩
  have hc : c.isPending := (h.left hm (Nat.le_refl m)).resolve_right (by simp [hnone hm])
  refine ⟨c.dispatch, ?_, issueFirst_eq_modify hm hc fun k c'' hk hkm => ?_⟩
  · obtain ⟨x, status⟩ := c
    cases status <;> first | exact hm | cases hc
  · exact (Call.isHandedOut_iff.1 (h.handedOut hk hkm)).1

theorem Ordered.findIdx_isPending (h : b.Ordered m) (hpending : b.calls.any Call.isPending) :
    b.calls.findIdx Call.isPending = m := by
  obtain ⟨x, hx, -⟩ := h.next hpending
  obtain ⟨hlt, hget⟩ := List.getElem?_eq_some_iff.1 hx
  refine (List.findIdx_eq hlt).2 ⟨by rw [hget]; rfl, fun j hj => ?_⟩
  have hout := h.handedOut (List.getElem?_eq_getElem (Nat.lt_trans hj hlt)) hj
  exact (Call.isHandedOut_iff.1 hout).1

/-- A permit is for the next call, unless the batch is cancelled. -/
theorem Ordered.advances_handOut (h : b.Ordered m) {cancelled : Bool}
    (hout : b.handOut cancelled = some b') (e : Engine) (now : Nat) :
    Advances e now m b none (if cancelled then m else m + 1) b' := by
  obtain ⟨hpending, hfree, rfl⟩ := handOut_eq_some hout
  cases cancelled with
  | true => exact .cancelled
  | false =>
    obtain ⟨x, hx, hissue⟩ := h.next hpending
    rw [if_neg Bool.false_ne_true, if_neg Bool.false_ne_true, hissue]
    exact .issued hx hfree

theorem advances_start (h : b.start k now e = some (b', e')) (m : Nat) :
    Advances e now m b (some k) m b' := by
  obtain ⟨x, status, hx, rfl, hbegun, hforeseen, hdue⟩ := start_foreseen h
  refine .begun hx ?_ hforeseen hdue
  rw [Call.hasStarted, hbegun, Call.IsForeseen.not_cancelled hforeseen]
  rfl

theorem advances_settle (h : b.settle k now e = some (b', e')) (m : Nat) :
    Advances e now m b none m b' := by
  obtain ⟨x, due, givenUp, result, hx, -, rfl, hresult, hforeseen⟩ := settle_foreseen h
  exact .ended hx hresult hforeseen

/-- A call that was handed out moves. -/
theorem Ordered.setStatus (h : b.Ordered m) (hc : b.calls[k]? = some c) (hout : c.isHandedOut)
    {status : CallStatus} (hstatus : Call.isHandedOut { c with status }) :
    (b.setStatus k status).Ordered m := by
  have hk := h.lt hc hout
  obtain ⟨hpending, hcancelled⟩ := Call.isHandedOut_iff.1 hstatus
  have hsame : ∀ {c₀ : Call}, b.calls[k]? = some c₀ → c₀ = c := fun h₀ => by
    cases h₀.symm.trans hc
    rfl
  refine ⟨by rw [length_setStatus]; exact h.le, fun hj hlt => ?_, fun hj hle => ?_, ?_⟩
  · rcases of_setStatus hj with ⟨-, hj⟩ | ⟨rfl, c₀, h₀, rfl⟩
    · exact h.handedOut hj hlt
    · cases hsame h₀
      exact hstatus
  · rcases of_setStatus hj with ⟨-, hj⟩ | ⟨rfl, -⟩
    · exact h.left hj hle
    · exact absurd hk (Nat.not_lt.2 hle)
  · refine h.whole.imp (fun hall => ?_) fun hall => ?_
    · intro j c' hj
      rcases of_setStatus hj with ⟨-, hj⟩ | ⟨rfl, c₀, h₀, rfl⟩
      · exact hall hj
      · cases hsame h₀
        exact hcancelled
    · intro j c' hj
      rcases of_setStatus hj with ⟨-, hj⟩ | ⟨rfl, c₀, h₀, rfl⟩
      · exact hall hj
      · cases hsame h₀
        exact hpending

/-- **Calls are handed out in the order of the plan**, and the others are cancelled together. -/
theorem Ordered.advances (h : b.Ordered m) (hmove : Advances e now m b place m' b') :
    b'.Ordered m' := by
  cases hmove with
  | @issued x hx _ =>
    have hnone : ∀ {k : Nat} {c : Call}, b.calls[k]? = some c → c.isCancelled = false :=
      h.whole.resolve_right fun hall => by cases hall hx
    obtain ⟨hlt, -⟩ := List.getElem?_eq_some_iff.1 hx
    refine ⟨by rw [length_setStatus]; exact hlt, fun hj hjm => ?_, fun hj hmj => ?_, .inl ?_⟩
    · rcases of_setStatus hj with ⟨hne, hj⟩ | ⟨rfl, c₀, h₀, rfl⟩
      · exact h.handedOut hj (Nat.lt_of_le_of_ne (Nat.le_of_lt_succ hjm) hne)
      · rfl
    · rcases of_setStatus hj with ⟨-, hj⟩ | ⟨rfl, -⟩
      · exact h.left hj (Nat.le_of_succ_le hmj)
      · exact absurd hmj (Nat.not_succ_le_self _)
    · intro j c hj
      rcases of_setStatus hj with ⟨-, hj⟩ | ⟨rfl, c₀, h₀, rfl⟩
      · exact hnone hj
      · rfl
  | cancelled =>
    refine ⟨by rw [List.length_map]; exact h.le, fun hj hjm => ?_, fun hj hmj => ?_, .inr ?_⟩
    · obtain ⟨c₀, h₀, rfl⟩ := of_map_cancel hj
      have hout := h.handedOut h₀ hjm
      rcases c₀.cancel_eq with ⟨-, heq⟩ | ⟨hpending, -⟩
      · rwa [heq]
      · rw [(Call.isHandedOut_iff.1 hout).1] at hpending
        cases hpending
    · obtain ⟨c₀, h₀, rfl⟩ := of_map_cancel hj
      rcases c₀.cancel_eq with ⟨-, heq⟩ | ⟨-, heq⟩
      · rw [heq]
        exact h.left h₀ hmj
      · rw [heq]
        exact .inr rfl
    · intro j c hj
      obtain ⟨c₀, h₀, rfl⟩ := of_map_cancel hj
      rcases c₀.cancel_eq with ⟨hpending, heq⟩ | ⟨-, heq⟩
      · rwa [heq]
      · rw [heq]
        rfl
  | begun hx hstarted _ _ =>
    exact h.setStatus hx rfl (Call.isHandedOut_of_hasStarted hstarted)
  | @ended k x due givenUp result hx hresult _ =>
    exact h.setStatus hx rfl (Call.isHandedOut_of_hasStarted (Call.hasStarted_done x hresult))

/-! ### Permits -/

/-- A call that moves takes one permit more at most, and none if it has one. -/
theorem inFlight_setStatus_le (hc : b.calls[k]? = some c) (status : CallStatus) :
    (b.setStatus k status).inFlight ≤ b.inFlight + 1 ∧
      (c.isInFlight → (b.setStatus k status).inFlight ≤ b.inFlight) := by
  obtain ⟨before, after, hcalls, hset⟩ := setStatus_calls hc status
  rw [inFlight, inFlight, hcalls, hset]
  simp only [List.countP_append, List.countP_cons]
  constructor
  · split <;> omega
  · intro hflight
    rw [if_pos hflight]
    split <;> omega

theorem inFlight_cancel (b : Batch) :
    ({ b with calls := b.calls.map Call.cancel } : Batch).inFlight = b.inFlight := by
  rw [inFlight, inFlight, List.countP_map]
  refine List.countP_congr fun c _ => ?_
  obtain ⟨x, status⟩ := c
  cases status <;> rfl

/-- **No more calls are in flight than there are permits.** -/
theorem Advances.inFlight_le (hmove : Advances e now m b place m' b') (h : b.inFlight ≤ b.permits) :
    b'.inFlight ≤ b'.permits := by
  cases hmove with
  | issued hx hfree => exact Nat.le_trans (inFlight_setStatus_le hx .issued).1 hfree
  | cancelled => rwa [inFlight_cancel]
  | begun hx _ _ _ => exact Nat.le_trans ((inFlight_setStatus_le hx _).2 rfl) h
  | ended hx _ _ => exact Nat.le_trans ((inFlight_setStatus_le hx _).2 rfl) h

theorem Advances.limits (hmove : Advances e now m b place m' b') :
    b'.permits = b.permits ∧ b'.timeout = b.timeout ∧ b'.dispatches = b.dispatches := by
  cases hmove with
  | cancelled => exact ⟨rfl, rfl, by simp [dispatches]⟩
  | _ => exact ⟨rfl, rfl, dispatches_setStatus ..⟩

/-! ### Outcomes -/

/-- Calls that are not cancelled have met with what is foreseen for them. -/
def Owned (e : Engine) (b : Batch) : Prop :=
  ∀ ⦃k : Nat⦄ ⦃c : Call⦄,
    b.calls[k]? = some c → c.isCancelled = false → c.IsForeseen e b.timeout

theorem owned_ofPlan (e : Engine) (limit timeout : Nat) (plan : List Dispatch) :
    (ofPlan limit timeout plan).Owned e := by
  intro k c hc _
  exact (foreseen_ofPlan e limit timeout plan).calls c (List.mem_of_getElem? hc)

theorem Owned.congr (h : b.Owned e) (hsame : e.SameNodes e') : b.Owned e' := by
  intro k c hc hown
  have hcall := h hc hown
  unfold Call.IsForeseen at hcall ⊢
  rwa [hsame.latencyOf, hsame.verdict]

/-- One call moves as it is foreseen. -/
theorem Owned.setStatus (h : b.Owned e) {status : CallStatus}
    (hstatus : ∀ c, b.calls[k]? = some c → Call.IsForeseen e b.timeout { c with status }) :
    (b.setStatus k status).Owned e := by
  intro j c hj hown
  rcases of_setStatus hj with ⟨-, hj⟩ | ⟨rfl, c₀, h₀, rfl⟩
  · exact h hj hown
  · exact hstatus c₀ h₀

/-- **Calls that were handed out come to what is foreseen for them.** -/
theorem Advances.owned (hmove : Advances e now m b place m' b') (h : b.Owned e) : b'.Owned e := by
  cases hmove with
  | issued _ _ =>
    refine h.setStatus ?_
    exact fun c _ => trivial
  | cancelled =>
    intro j c hj hown
    obtain ⟨c₀, h₀, rfl⟩ := of_map_cancel hj
    rcases c₀.cancel_eq with ⟨-, heq⟩ | ⟨-, heq⟩
    · rw [heq] at hown ⊢
      exact h h₀ hown
    · rw [heq] at hown
      cases hown
  | begun hx _ hforeseen _ =>
    refine h.setStatus fun c hc => ?_
    cases hx.symm.trans hc
    exact hforeseen
  | ended hx _ hforeseen =>
    refine h.setStatus fun c hc => ?_
    cases hx.symm.trans hc
    exact hforeseen (h hx rfl)

/-- When all calls are over, the first `m` have begun, and no others. -/
theorem Ordered.hasStarted_iff (h : b.Ordered m) (hdone : b.isDone) :
    (b.calls[k]?).any Call.hasStarted ↔ k < m := by
  constructor
  · intro hany
    obtain ⟨c, hc, hstarted⟩ := (Option.any_eq_true _ _).1 hany
    exact h.lt hc (Call.isHandedOut_of_hasStarted hstarted)
  · intro hk
    obtain ⟨c, hc⟩ : ∃ c, b.calls[k]? = some c :=
      ⟨_, List.getElem?_eq_getElem (Nat.lt_of_lt_of_le hk h.le)⟩
    have hover := List.all_eq_true.1 hdone _ (List.mem_of_getElem? hc)
    have hcancelled := (Call.isHandedOut_iff.1 (h.handedOut hc hk)).2
    rw [hc, Option.any_some, Call.hasStarted, hcancelled, Bool.not_false, Bool.and_true]
    obtain ⟨x, status⟩ := c
    cases status with
    | done result => rfl
    | _ => cases hover

/-- When all calls are over and none is cancelled, all were handed out. -/
theorem Ordered.length_le (h : b.Ordered m) (hdone : b.isDone)
    (hnone : ∀ c ∈ b.calls, c.isCancelled = false) : b.calls.length ≤ m := by
  by_contra hlt
  obtain ⟨c, hc⟩ : ∃ c, b.calls[m]? = some c :=
    ⟨_, List.getElem?_eq_getElem (Nat.lt_of_not_le hlt)⟩
  have hmem := List.mem_of_getElem? hc
  have hover := List.all_eq_true.1 hdone _ hmem
  have hcancelled := hnone _ hmem
  have hleft := h.left hc (Nat.le_refl m)
  rw [hcancelled] at hleft
  obtain ⟨x, status⟩ := c
  cases status with
  | done result => rcases hleft with hleft | hleft <;> cases hleft
  | _ => cases hover

/-- When all calls are over, the first `m` have come to what is foreseen for them, and the others
are cancelled. -/
theorem Ordered.outcomes (h : b.Ordered m) (howned : b.Owned e) (hdone : b.isDone) :
    b.outcomes.map Outcome.bare =
      ((b.dispatches.take m).map fun x => ⟨x, e.verdict b.timeout x⟩) ++
        (b.dispatches.drop m).map fun x => ⟨x, .error .cancelled⟩ := by
  have hall := hdone
  rw [isDone, ← b.calls.take_append_drop m, List.all_append, Bool.and_eq_true] at hall
  have hfirst := outcomes_bare_of_all (v := e.verdict b.timeout) hall.1
    fun c hc result hresult => by
    obtain ⟨k, hk⟩ := List.mem_iff_getElem?.1 hc
    rw [List.getElem?_take] at hk
    split at hk
    · next hkm =>
      have hcall := howned hk (Call.isHandedOut_iff.1 (h.handedOut hk hkm)).2
      rwa [Call.IsForeseen, hresult] at hcall
    · cases hk
  have hrest := outcomes_bare_of_all (v := fun _ => .error .cancelled) hall.2
    fun c hc result hresult => by
      obtain ⟨k, hk⟩ := List.mem_iff_getElem?.1 hc
      rw [List.getElem?_drop] at hk
      obtain ⟨x, status⟩ := c
      cases hresult
      -- a call that is over does not wait
      have hcancelled := (h.left hk (Nat.le_add_right m k)).resolve_left (by simp [Call.isPending])
      cases result with
      | ok handle => cases hcancelled
      | error e => cases e <;> first | rfl | cases hcancelled
  rw [Batch.outcomes, dispatches, ← List.map_take, ← List.map_drop, List.map_map, List.map_map]
  conv_lhs => rw [← b.calls.take_append_drop m]
  rw [List.filterMap_append, List.map_append, hfirst, hrest]
  rfl

end Batch

end FleetControl
