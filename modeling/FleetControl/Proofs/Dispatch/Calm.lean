import FleetControl.Proofs.Dispatch.Batch
import Mathlib.Algebra.GroupWithZero.Nat
import Mathlib.Algebra.Order.Group.Nat
import Mathlib.Algebra.BigOperators.Group.List.Basic
import Mathlib.Data.Nat.Find

/-!
# Batches on a calm engine

An engine is *calm* if no node fails and no call takes longer than the time limit
(`Engine.Calm`). A batch that is not cancelled moves (`Batch.Move`) by handing out a permit and by
beginning or ending a call, at any time and on any engine that is calm just then: other batches may
use the engine in between, and leave it calm (`Batch.CallMove.calm`).

* `Batch.next` : a batch that is not done can go on, now or when its next call is due, so it has a
  move then, whatever engine it meets (`Batch.exists_move`);
* `Batch.Move.smooth` : every move brings it closer to its end, so it can always be carried out if
  its permits can be counted (`Batch.exists_carries`), and otherwise not at all;
* `Batch.Carries.result` : then every dispatch has succeeded.
-/

namespace FleetControl

namespace Engine

/-- No node fails, and no call takes longer than `timeout`. -/
structure Calm (timeout : Nat) (e : Engine) : Prop where
  failing : ∀ nodeId, e.isFailing nodeId = false
  latency : ∀ nodeId, e.latencyOf nodeId ≤ timeout

theorem Alike.calm {e e' : Engine} (h : e.Alike e') {timeout : Nat} (hcalm : e.Calm timeout) :
    e'.Calm timeout := by
  constructor
  · intro nodeId
    rw [isFailing, h.failing]
    exact hcalm.failing nodeId
  · intro nodeId
    rw [latencyOf, h.latency]
    exact hcalm.latency nodeId

theorem calm_empty (timeout : Nat) : Calm timeout {} :=
  ⟨fun _ => rfl, fun _ => Nat.zero_le _⟩

end Engine

namespace Dispatch

/-- On a calm engine a dispatch succeeds, and leaves the engine calm. -/
theorem perform_calm {timeout : Nat} {e : Engine} (h : e.Calm timeout) (x : Dispatch) :
    (x.perform e).1.Calm timeout ∧ ∃ handle, (x.perform e).2 = .ok handle := by
  cases x with
  | create node spec seq =>
    simp only [perform, Engine.create, h.failing node.id, Bool.false_eq_true, if_false]
    exact ⟨⟨h.failing, h.latency⟩, _, rfl⟩
  | remove target stale =>
    simp only [perform, Engine.remove, h.failing target.nodeId, Bool.false_eq_true, if_false]
    exact ⟨⟨h.failing, h.latency⟩, _, rfl⟩

end Dispatch

namespace Call

/-- The call has met with no trouble so far. -/
def isSmooth (c : Call) : Bool :=
  match c.status with
  | .pending | .issued => true
  | .running _ givenUp => !givenUp
  | .done result => result.isOk

/-- How many moves the call is from its end. -/
def weight (c : Call) : Nat :=
  match c.status with
  | .pending => 3
  | .issued => 2
  | .running .. => 1
  | .done _ => 0

end Call

namespace Batch

/-- What a batch can do at a time, on an engine. -/
inductive Move (now : Nat) (e : Engine) (b : Batch) : Batch → Prop
  | handOut {b' : Batch} : b.handOut false = some b' → Move now e b b'
  | start {b' : Batch} {e' : Engine} {k : Nat} :
      b.start k now e = some (b', e') → Move now e b b'
  | settle {b' : Batch} {e' : Engine} {k : Nat} :
      b.settle k now e = some (b', e') → Move now e b b'

/-- What becomes of the batch `b₀` as it moves on calm engines. -/
inductive Reaches (b₀ : Batch) : Batch → Prop
  | begun : Reaches b₀ b₀
  | moved {b b' : Batch} {now : Nat} {e : Engine} :
      Reaches b₀ b → e.Calm b.timeout → Move now e b b' → Reaches b₀ b'

/-- The plan can be carried out with these outcomes. With more permits than can be counted it is not
begun. -/
structure Carries (limit timeout : Nat) (plan : List Dispatch) (outcomes : List Outcome) : Prop where
  countable : (ofPlan limit timeout plan).permits ≤ maxPermits
  done : ∃ b, (ofPlan limit timeout plan).Reaches b ∧ b.isDone ∧ outcomes = b.outcomes

/-- A call leaves the engine calm for those that come next. -/
theorem CallMove.calm {b b' : Batch} {e e' : Engine} {k : Nat} (h : b.CallMove e k b' e')
    {timeout : Nat} (hcalm : e.Calm timeout) : e'.Calm timeout := by
  cases h with
  | idle _ _ halike _ => exact halike.calm hcalm
  | performed _ _ halike => exact (Dispatch.perform_calm (halike.calm hcalm) _).1

/-! ### Calls without trouble -/

/-- How many moves the calls of a batch are from their end. -/
def weight (b : Batch) : Nat := (b.calls.map Call.weight).sum

/-- There is a permit, and all calls are without trouble. -/
structure Smooth (b : Batch) : Prop where
  permits : 0 < b.permits
  calls : b.calls.all Call.isSmooth

theorem smooth_ofPlan (limit timeout : Nat) (plan : List Dispatch) :
    (ofPlan limit timeout plan).Smooth := by
  refine ⟨Nat.lt_of_lt_of_le Nat.zero_lt_one (Nat.le_max_right ..), List.all_eq_true.2 ?_⟩
  intro c hc
  obtain ⟨x, -, rfl⟩ := List.mem_map.1 hc
  rfl

/-- One call is replaced by one without trouble that is closer to its end. -/
theorem Smooth.replace {b b' : Batch} (h : b.Smooth) (hpermits : b'.permits = b.permits)
    {before after : List Call} {c c' : Call} (hcalls : b.calls = before ++ c :: after)
    (hcalls' : b'.calls = before ++ c' :: after) (hsmooth : c'.isSmooth)
    (hweight : c'.weight < c.weight) : b'.Smooth ∧ b'.weight < b.weight := by
  have hall := h.calls
  rw [hcalls, List.all_append, List.all_cons, Bool.and_eq_true, Bool.and_eq_true] at hall
  refine ⟨⟨hpermits ▸ h.permits, ?_⟩, ?_⟩
  · rw [hcalls', List.all_append, List.all_cons, Bool.and_eq_true, Bool.and_eq_true]
    exact ⟨hall.1, hsmooth, hall.2.2⟩
  · rw [weight, weight, hcalls, hcalls']
    simp only [List.map_append, List.map_cons, List.sum_append, List.sum_cons]
    omega

theorem setStatus_smooth {b : Batch} (h : b.Smooth) {k : Nat} {c : Call} (hc : b.calls[k]? = some c)
    (status : CallStatus) (hsmooth : Call.isSmooth { c with status })
    (hweight : Call.weight { c with status } < c.weight) :
    (b.setStatus k status).Smooth ∧ (b.setStatus k status).weight < b.weight := by
  obtain ⟨before, after, hcalls, hset⟩ := setStatus_calls hc status
  exact h.replace rfl hcalls hset hsmooth hweight

/-- **A move on a calm engine meets with no trouble**, and brings the batch closer to its end. -/
theorem Move.smooth {now : Nat} {e : Engine} {b b' : Batch} (h : b.Smooth)
    (hcalm : e.Calm b.timeout) (hmove : b.Move now e b') :
    b'.Smooth ∧ b'.weight < b.weight ∧ b'.timeout = b.timeout := by
  cases hmove with
  | handOut hout =>
    obtain ⟨hpending, -, rfl⟩ := handOut_eq_some hout
    obtain ⟨before, ⟨dispatch, status⟩, after, hcalls, hstatus, hissue⟩ := issueFirst_eq hpending
    cases hstatus
    rw [if_neg Bool.false_ne_true, hissue]
    exact and_assoc.1 ⟨h.replace rfl hcalls rfl rfl (show 2 < 3 by omega), rfl⟩
  | start hstart =>
    unfold Batch.start at hstart
    split at hstart
    · next dispatch hcall =>
      have hcount := (e.alike_count dispatch.kind).calm hcalm
      obtain ⟨-, handle, hok⟩ := Dispatch.perform_calm hcount dispatch
      dsimp only at hstart
      -- the time limit is no shorter than the latency
      have hle := hcount.latency dispatch.nodeId
      split_ifs at hstart with hzero hlimit
      · cases hstart
        obtain ⟨hsmooth, hweight⟩ := setStatus_smooth h hcall
          (.done (dispatch.perform (e.count dispatch.kind)).2)
          (by rw [Call.isSmooth, hok]; rfl) (by simp [Call.weight])
        exact ⟨hsmooth, hweight, rfl⟩
      · omega
      · cases hstart
        obtain ⟨hsmooth, hweight⟩ := setStatus_smooth h hcall
          (.running (now + min ((e.count dispatch.kind).latencyOf dispatch.nodeId) b.timeout)
            (b.timeout < (e.count dispatch.kind).latencyOf dispatch.nodeId))
          (by simpa [Call.isSmooth] using hle) (by simp [Call.weight])
        exact ⟨hsmooth, hweight, rfl⟩
    · cases hstart
  | settle hsettle =>
    -- a call that was not given up when it began ends with what the engine answers
    unfold Batch.settle at hsettle
    split at hsettle
    · next dispatch due givenUp hcall =>
      obtain ⟨-, handle, hok⟩ := Dispatch.perform_calm hcalm dispatch
      have hsmooth := List.all_eq_true.1 h.calls _ (List.mem_of_getElem? hcall)
      have hgiven : givenUp = false := by simpa [Call.isSmooth] using hsmooth
      subst hgiven
      simp only [Bool.false_eq_true, if_false] at hsettle
      split_ifs at hsettle
      cases hsettle
      obtain ⟨hsmooth, hweight⟩ := setStatus_smooth h hcall (.done (dispatch.perform e).2)
        (by rw [Call.isSmooth, hok]; rfl) (by simp [Call.weight])
      exact ⟨hsmooth, hweight, rfl⟩
    · cases hsettle

theorem Move.dispatches {now : Nat} {e : Engine} {b b' : Batch} (h : b.Move now e b') :
    b'.dispatches = b.dispatches := by
  cases h with
  | handOut hout => exact dispatches_handOut hout
  | start hstart => exact (callMove_start hstart).dispatches
  | settle hsettle => exact (callMove_settle hsettle).dispatches

theorem Reaches.smooth {b₀ b : Batch} (h : b₀.Reaches b) (h₀ : b₀.Smooth) :
    b.Smooth ∧ b.timeout = b₀.timeout ∧ b.dispatches = b₀.dispatches := by
  induction h with
  | begun => exact ⟨h₀, rfl, rfl⟩
  | moved _ hcalm hmove ih =>
    obtain ⟨hsmooth, htimeout, hdispatches⟩ := ih
    obtain ⟨hsmooth', -, htimeout'⟩ := hmove.smooth hsmooth hcalm
    exact ⟨hsmooth', htimeout'.trans htimeout, hmove.dispatches.trans hdispatches⟩

/-- Once a plan is carried out, each of its dispatches has succeeded. -/
theorem Carries.result {limit timeout : Nat} {plan : List Dispatch} {outcomes : List Outcome}
    (h : Carries limit timeout plan outcomes) :
    outcomes.map (·.dispatch) = plan ∧ ∀ o ∈ outcomes, ∃ handle, o.result = .ok handle := by
  obtain ⟨b, hreaches, hdone, rfl⟩ := h.done
  obtain ⟨hsmooth, -, hdispatches⟩ := hreaches.smooth (smooth_ofPlan limit timeout plan)
  refine ⟨?_, fun o ho => ?_⟩
  · rw [outcomes_dispatches hdone, hdispatches, dispatches_ofPlan]
  · obtain ⟨⟨dispatch, status⟩, hc, hout⟩ := List.mem_filterMap.1 ho
    have hok := List.all_eq_true.1 hsmooth.calls _ hc
    cases status with
    | done result =>
      cases hout
      cases result with
      | ok handle => exact ⟨handle, rfl⟩
      | error e => cases hok
    | _ => cases hout

/-! ### Every batch can be carried out -/

variable {b : Batch} {k now : Nat}

theorem inFlight_eq_zero (h : ∀ c ∈ b.calls, ¬ c.isInFlight) : b.inFlight = 0 :=
  List.countP_eq_zero.2 h

theorem weight_ofPlan (limit timeout : Nat) (plan : List Dispatch) :
    (ofPlan limit timeout plan).weight = 3 * plan.length := by
  rw [weight, ofPlan, List.map_map]
  have hcall : Call.weight ∘ (fun dispatch : Dispatch => { dispatch }) = fun _ => 3 := rfl
  rw [hcall, List.map_const', List.sum_replicate_nat, Nat.mul_comm]

theorem weight_of_isDone (h : b.isDone) : b.weight = 0 := by
  refine List.sum_eq_zero fun n hn => ?_
  obtain ⟨⟨x, status⟩, hc, rfl⟩ := List.mem_map.1 hn
  have hdone := List.all_eq_true.1 h _ hc
  cases status with
  | done result => rfl
  | _ => cases hdone

/-- The call has a permit and is yet to begin. -/
def Ready (b : Batch) (k : Nat) : Prop := ∃ x, b.calls[k]? = some ⟨x, .issued⟩

/-- No call can begin, and none can be handed out. -/
structure Stalled (b : Batch) : Prop where
  begun : ∀ k, ¬ b.Ready k
  full : b.calls.any Call.isPending → b.permits ≤ b.inFlight

/-- No call is due before the instant. -/
def DueFrom (b : Batch) (instant : Nat) : Prop :=
  ∀ (k : Nat) (x : Dispatch) (due : Nat) (givenUp : Bool),
    b.calls[k]? = some ⟨x, .running due givenUp⟩ → instant ≤ due

theorem Ready.start_isSome (hk : b.Ready k) (now : Nat) (e : Engine) :
    (b.start k now e).isSome := by
  obtain ⟨x, hk⟩ := hk
  simp only [Batch.start, hk]
  split_ifs <;> rfl

theorem settle_isSome {x : Dispatch} {due : Nat} {givenUp : Bool}
    (hk : b.calls[k]? = some ⟨x, .running due givenUp⟩) (hdue : due ≤ now) (e : Engine) :
    (b.settle k now e).isSome := by
  simp only [Batch.settle, hk, Nat.not_lt.2 hdue, if_false]
  split_ifs <;> rfl

theorem handOut_isSome (hpending : b.calls.any Call.isPending) (hfree : b.inFlight < b.permits)
    (cancelled : Bool) : (b.handOut cancelled).isSome := by
  simp only [Batch.handOut, hpending, hfree, decide_true, Bool.and_self, if_true]
  split_ifs <;> rfl

/-- A call that is not over holds a permit, or waits for one that is held. -/
theorem exists_inFlight (hpermits : 0 < b.permits) (hdone : b.isDone = false)
    (hfull : b.calls.any Call.isPending → b.permits ≤ b.inFlight) :
    ∃ (k : Nat) (c : Call), b.calls[k]? = some c ∧ c.isInFlight := by
  rw [isDone, List.all_eq_false] at hdone
  obtain ⟨⟨x, status⟩, hc, hnot⟩ := hdone
  cases status with
  | pending =>
    have hheld := Nat.lt_of_lt_of_le hpermits (hfull (List.any_eq_true.2 ⟨_, hc, rfl⟩))
    obtain ⟨c, hc, hflight⟩ := List.countP_pos_iff.1 hheld
    obtain ⟨k, hk⟩ := List.mem_iff_getElem?.1 hc
    exact ⟨k, c, hk, hflight⟩
  | issued =>
    obtain ⟨k, hk⟩ := List.mem_iff_getElem?.1 hc
    exact ⟨k, _, hk, rfl⟩
  | running due givenUp =>
    obtain ⟨k, hk⟩ := List.mem_iff_getElem?.1 hc
    exact ⟨k, _, hk, rfl⟩
  | done result => exact absurd rfl hnot

/-- How a batch can go on that is not over. -/
inductive Next (b : Batch) : Prop
  /-- The first call that is ready begins. -/
  | start {k : Nat} : b.Ready k → (∀ j < k, ¬ b.Ready j) → Next b
  /-- A permit is handed out. -/
  | handOut : b.calls.any Call.isPending → b.inFlight < b.permits → Next b
  /-- A call ends, when its time has come. Nothing can be done before. -/
  | settle {k : Nat} {x : Dispatch} {due : Nat} {givenUp : Bool} : b.Stalled →
      b.calls[k]? = some ⟨x, .running due givenUp⟩ → b.DueFrom due → Next b

/-- **A batch that is not over can go on.** -/
theorem next (hpermits : 0 < b.permits) (hdone : b.isDone = false) : b.Next := by
  classical
  by_cases hready : ∃ k, b.Ready k
  · exact .start (Nat.find_spec hready) fun j hj => Nat.find_min hready hj
  · by_cases hfree : b.calls.any Call.isPending ∧ b.inFlight < b.permits
    · exact .handOut hfree.1 hfree.2
    · have hstalled : b.Stalled := ⟨fun k hk => hready ⟨k, hk⟩, fun hpending =>
        Nat.le_of_not_lt fun hlt => hfree ⟨hpending, hlt⟩⟩
      have hrunning : ∃ (due k : Nat) (x : Dispatch) (givenUp : Bool),
          b.calls[k]? = some ⟨x, .running due givenUp⟩ := by
        obtain ⟨k, ⟨x, status⟩, hk, hflight⟩ := exists_inFlight hpermits hdone hstalled.full
        cases status with
        | issued => exact absurd ⟨x, hk⟩ (hstalled.begun k)
        | running due givenUp => exact ⟨due, k, x, givenUp, hk⟩
        | _ => cases hflight
      obtain ⟨k, x, givenUp, hk⟩ := Nat.find_spec hrunning
      exact .settle hstalled hk fun j y due givenUp' hj =>
        Nat.find_min' hrunning ⟨j, y, givenUp', hj⟩

/-- **A batch is never stuck.** Whatever engine it meets, it has a move until it is done, from some
time on. -/
theorem exists_move (h : 0 < b.permits) (hdone : b.isDone = false) (e : Engine) :
    ∃ due, ∀ now, due ≤ now → ∃ b', b.Move now e b' := by
  cases next h hdone with
  | start hk _ =>
    refine ⟨0, fun now _ => ?_⟩
    obtain ⟨⟨b', e'⟩, hb'⟩ := Option.isSome_iff_exists.1 (hk.start_isSome now e)
    exact ⟨b', .start hb'⟩
  | handOut hpending hfree =>
    refine ⟨0, fun now _ => ?_⟩
    obtain ⟨b', hb'⟩ := Option.isSome_iff_exists.1 (handOut_isSome hpending hfree false)
    exact ⟨b', .handOut hb'⟩
  | @settle k x due givenUp _ hk _ =>
    refine ⟨due, fun now hdue => ?_⟩
    obtain ⟨⟨b', e'⟩, hb'⟩ := Option.isSome_iff_exists.1 (settle_isSome hk hdue e)
    exact ⟨b', .settle hb'⟩

/-- A batch that meets calm engines is done after as many moves as it is from its end. -/
theorem exists_reaches {b : Batch} (h : b.Smooth) : ∃ b', b.Reaches b' ∧ b'.isDone := by
  suffices hmoves : ∀ n b', b.Reaches b' → b'.weight = n → ∃ b'', b.Reaches b'' ∧ b''.isDone from
    hmoves _ b .begun rfl
  intro n
  induction n using Nat.strong_induction_on with
  | _ n ih =>
    intro b' hreaches hn
    by_cases hdone : b'.isDone
    · exact ⟨b', hreaches, hdone⟩
    · obtain ⟨hsmooth, -, -⟩ := hreaches.smooth h
      have hcalm := Engine.calm_empty b'.timeout
      obtain ⟨now, hnow⟩ := exists_move hsmooth.permits (Bool.not_eq_true _ ▸ hdone) {}
      obtain ⟨b'', hmove⟩ := hnow now (Nat.le_refl now)
      obtain ⟨-, hlt, -⟩ := hmove.smooth hsmooth hcalm
      exact ih b''.weight (hn ▸ hlt) b'' (hreaches.moved hcalm hmove) rfl

theorem exists_carries {limit : Nat} (hlimit : limit ≤ maxPermits) (timeout : Nat)
    (plan : List Dispatch) : ∃ outcomes, Carries limit timeout plan outcomes := by
  obtain ⟨b, hreaches, hdone⟩ := exists_reaches (smooth_ofPlan limit timeout plan)
  exact ⟨b.outcomes, permits_ofPlan_le hlimit timeout plan, b, hreaches, hdone, rfl⟩

end Batch

end FleetControl
