import FleetControl.Proofs.Engine
import FleetControl.Proofs.Pass.Course
import Mathlib.Algebra.BigOperators.Group.List.Basic
import Mathlib.Algebra.Order.Sub.Unbundled.Basic
import Mathlib.Tactic.Abel

/-!
# What a pass under way accounts for

The working copy of a pass lags behind the engine: calls of a plan take effect one by one, and their
outcomes are folded only when all are over. What the pass accounts for (`Pass.holdings`) is the
containers of its working copy with those that the calls so far have created and without those that
they have removed.

* `Pass.Sound.holdings_concluded` : when all calls are over, this is what the folded record has;
* `Pass.Sound.holdings_callMove` : a call changes it just as it changes the engine.
-/

namespace FleetControl

/-- The handles of the instances of a record, with their nodes. -/
def Deployment.holdings (d : Deployment) : Multiset (String × String) :=
  d.instances.map Instance.holding

theorem Deployment.begun_holdings (d : Deployment) : d.begun.holdings = d.holdings := by
  obtain ⟨state, heq⟩ := d.begun_eq
  rw [heq]
  rfl

/-- The handles of the instances of the record that a pass works on or has left, with their nodes.
-/
def Progress.holdings : Progress → Multiset (String × String)
  | .dispatching pass => pass.work.holdings
  | .finished work _ => work.holdings

namespace Outcome

/-- The containers that were created. -/
def gains (o : Outcome) : Multiset (String × String) :=
  match o.dispatch, o.result with
  | .create node _ _, .ok handle => {(handle, node.id)}
  | _, _ => 0

/-- The containers that were removed. -/
def losses (o : Outcome) : Multiset (String × String) :=
  match o.dispatch, o.result with
  | .remove target _, .ok _ => {target.holding}
  | _, _ => 0

theorem gains_error (x : Dispatch) (e : DispatchError) : gains ⟨x, .error e⟩ = 0 := by
  cases x <;> rfl

theorem losses_error (x : Dispatch) (e : DispatchError) : losses ⟨x, .error e⟩ = 0 := by
  cases x <;> rfl

theorem losses_le (o : Outcome) : o.losses ≤ ↑(o.dispatch.target?.toList.map Instance.holding) := by
  obtain ⟨dispatch, result⟩ := o
  cases result with
  | error e => exact losses_error dispatch e ▸ Multiset.zero_le _
  | ok handle =>
    cases dispatch with
    | create node spec seq => exact Multiset.zero_le _
    | remove target stale => exact le_refl _

end Outcome

namespace Call

/-- The containers that the call has created. -/
def gains (c : Call) : Multiset (String × String) := c.outcome?.elim 0 Outcome.gains

/-- The containers that the call has removed. -/
def losses (c : Call) : Multiset (String × String) := c.outcome?.elim 0 Outcome.losses

/-- A call that did not succeed has changed nothing. -/
theorem gains_of_status {c : Call} (h : ∀ handle, c.status ≠ .done (.ok handle)) :
    c.gains = 0 ∧ c.losses = 0 := by
  obtain ⟨dispatch, status⟩ := c
  cases status with
  | done result =>
    cases result with
    | error e => exact ⟨Outcome.gains_error dispatch e, Outcome.losses_error dispatch e⟩
    | ok handle => exact absurd rfl (h handle)
  | _ => exact ⟨rfl, rfl⟩

theorem gains_of_inFlight {c : Call} (h : c.isInFlight) : c.gains = 0 ∧ c.losses = 0 := by
  refine gains_of_status fun handle hstatus => ?_
  rw [isInFlight, hstatus] at h
  cases h

theorem gains_cancel (c : Call) : c.cancel.gains = c.gains ∧ c.cancel.losses = c.losses := by
  obtain ⟨dispatch, status⟩ := c
  cases status with
  | pending => exact ⟨Outcome.gains_error dispatch _, Outcome.losses_error dispatch _⟩
  | _ => exact ⟨rfl, rfl⟩

end Call

namespace Batch

/-- The containers that the calls of a batch have created. -/
def gains (b : Batch) : Multiset (String × String) := (b.calls.map Call.gains).sum

/-- The containers that the calls of a batch have removed. -/
def losses (b : Batch) : Multiset (String × String) := (b.calls.map Call.losses).sum

theorem gains_ofPlan (limit timeout : Nat) (plan : List Dispatch) :
    (ofPlan limit timeout plan).gains = 0 ∧ (ofPlan limit timeout plan).losses = 0 := by
  rw [gains, losses, ofPlan]
  simp only [List.map_map]
  induction plan with
  | nil => exact ⟨rfl, rfl⟩
  | cons x rest ih =>
    rw [List.map_cons, List.map_cons, List.sum_cons, List.sum_cons, ih.1, ih.2]
    exact ⟨rfl, rfl⟩

theorem sum_outcomes (b : Batch) :
    (b.outcomes.map Outcome.gains).sum = b.gains ∧
      (b.outcomes.map Outcome.losses).sum = b.losses := by
  rw [outcomes, gains, losses]
  induction b.calls with
  | nil => exact ⟨rfl, rfl⟩
  | cons c rest ih =>
    rw [List.map_cons, List.map_cons, List.sum_cons, List.sum_cons, ← ih.1, ← ih.2, Call.gains,
      Call.losses]
    cases hc : c.outcome? <;> simp [hc]

/-- What was removed was planned to be removed, and each dispatch was carried out once. -/
theorem losses_le (b : Batch) :
    b.losses ≤ ↑((b.dispatches.filterMap Dispatch.target?).map Instance.holding) := by
  rw [losses, dispatches]
  induction b.calls with
  | nil => exact le_refl _
  | cons c rest ih =>
    have hc : c.losses ≤ ↑(c.dispatch.target?.toList.map Instance.holding) := by
      obtain ⟨dispatch, status⟩ := c
      cases status with
      | done result => exact Outcome.losses_le ⟨dispatch, result⟩
      | _ => exact Multiset.zero_le _
    -- the call takes its own target and leaves the others to the rest
    have hsplit : ((c :: rest).map (·.dispatch)).filterMap Dispatch.target? =
        c.dispatch.target?.toList ++ (rest.map (·.dispatch)).filterMap Dispatch.target? := by
      cases ht : c.dispatch.target? <;> simp [ht]
    rw [List.map_cons, List.sum_cons, hsplit, List.map_append, ← Multiset.coe_add]
    exact add_le_add hc ih

/-- Handing out creates and removes nothing. -/
theorem gains_handOut {cancelled : Bool} {b b' : Batch} (h : b.handOut cancelled = some b') :
    b'.gains = b.gains ∧ b'.losses = b.losses := by
  obtain ⟨hpending, -, rfl⟩ := handOut_eq_some h
  cases cancelled with
  | true =>
    have hgains : Call.gains ∘ Call.cancel = Call.gains := funext fun c => (Call.gains_cancel c).1
    have hlosses : Call.losses ∘ Call.cancel = Call.losses :=
      funext fun c => (Call.gains_cancel c).2
    simp only [gains, losses, if_true, List.map_map, hgains, hlosses, and_self]
  | false =>
    obtain ⟨before, ⟨dispatch, status⟩, after, hcalls, hstatus, hissue⟩ := issueFirst_eq hpending
    cases hstatus
    rw [gains, gains, losses, losses, if_neg Bool.false_ne_true, hissue, hcalls]
    simp only [List.map_append, List.map_cons]
    exact ⟨rfl, rfl⟩

/-- When a call in flight gets a status, this is all that it adds. -/
theorem gains_setStatus {b : Batch} {k : Nat} {c : Call} (h : b.calls[k]? = some c)
    (hflight : c.isInFlight) (status : CallStatus) :
    (b.setStatus k status).gains = Call.gains { c with status } + b.gains ∧
      (b.setStatus k status).losses = Call.losses { c with status } + b.losses := by
  obtain ⟨before, after, hcalls, hset⟩ := setStatus_calls h status
  obtain ⟨hgains, hlosses⟩ := Call.gains_of_inFlight hflight
  rw [gains, gains, losses, losses, hset, hcalls]
  simp only [List.map_append, List.map_cons, List.sum_append, List.sum_cons, hgains, hlosses,
    zero_add]
  exact ⟨add_left_comm .., add_left_comm ..⟩

end Batch

namespace Pass

/-! ### Folding -/

/-- Folding an outcome counts what it has created and removed. -/
theorem take_holdings {p : Pass} (h : p.Sound) (now : Nat) {o : Outcome} {rest : List Dispatch}
    (hplan : p.plan = o.dispatch :: rest) :
    (p.take now o).work.holdings + o.losses = p.work.holdings + o.gains := by
  unfold Deployment.holdings
  obtain ⟨node, spec, seq, handle, rfl, hinst⟩ | ⟨target, stale, handle, rfl, hinst⟩ |
    ⟨⟨error, herror⟩, hinst⟩ := take_instances now o p
  · rw [hinst, List.map_append, ← Multiset.coe_add]
    exact add_zero _
  · have htarget : target ∈ p.work.instances := h.targets_subset (by simp [targets, hplan])
    have hperm := (List.perm_cons_erase htarget).map Instance.holding
    rw [hinst, h.filter_id_ne htarget, Multiset.coe_eq_coe.2 hperm, List.map_cons,
      ← Multiset.cons_coe, ← Multiset.singleton_add, add_comm]
    exact (add_zero _).symm
  · obtain ⟨dispatch, result⟩ := o
    cases herror
    rw [hinst, Outcome.gains_error, Outcome.losses_error]

theorem foldAll_holdings {p : Pass} (h : p.Sound) (now : Nat) {outcomes : List Outcome}
    (hplan : p.plan = outcomes.map (·.dispatch)) :
    (p.foldAll now outcomes).work.holdings + (outcomes.map Outcome.losses).sum =
      p.work.holdings + (outcomes.map Outcome.gains).sum := by
  induction outcomes generalizing p with
  | nil => rfl
  | cons o rest ih =>
    have htake := take_holdings h now hplan
    have hrest := ih (h.take now hplan) (by rw [take_plan, hplan]; rfl)
    rw [foldAll_cons, List.map_cons, List.map_cons, List.sum_cons, List.sum_cons]
    calc ((p.take now o).foldAll now rest).work.holdings +
          (o.losses + (rest.map Outcome.losses).sum)
        = (p.take now o).work.holdings + (rest.map Outcome.gains).sum + o.losses := by
          rw [← hrest]
          abel
      _ = p.work.holdings + (o.gains + (rest.map Outcome.gains).sum) := by
        rw [add_right_comm, htake, add_assoc]

/-! ### Beginnings and ends -/

theorem proceed_holdings (f : Fleet) (p : Pass) : (p.proceed f).holdings = p.work.holdings := by
  cases hnext : p.proceed f with
  | dispatching p' =>
    obtain ⟨-, rfl⟩ := proceed_dispatching hnext
    rfl
  | finished work report =>
    obtain ⟨-, hinst, -⟩ := finished_eq hnext
    rw [Progress.holdings, Deployment.holdings, hinst, Deployment.holdings]

theorem launch_holdings (f : Fleet) (p : Pass) : (p.launch f).holdings = p.work.holdings := by
  unfold launch
  split
  · exact proceed_holdings f p
  · rfl

/-- A pass on a record without lost instances begins with all of them. -/
theorem start_holdings {f : Fleet} {d : Deployment}
    (hd : ∀ i ∈ d.instances, f.registry.Knows i.nodeId) {p : Pass}
    {selector : Placement.Selector} (h : start f d = .planned p selector) :
    p.work.holdings = d.holdings := by
  obtain ⟨-, hinst, -⟩ := start_planned h
  rw [Deployment.holdings, hinst, dropLost_instances_eq hd, Deployment.holdings]

theorem start_failed_holdings {f : Fleet} {d work : Deployment}
    (hd : ∀ i ∈ d.instances, f.registry.Knows i.nodeId) {e : Region.Error}
    (h : start f d = .failed work e) : work.holdings = d.holdings := by
  obtain ⟨-, hinst, -⟩ := start_failed h
  rw [Deployment.holdings, hinst, dropLost_instances_eq hd, Deployment.holdings]

/-! ### Calls -/

/-- What the pass accounts for while a batch carries out its plan. -/
def holdings (p : Pass) (b : Batch) : Multiset (String × String) :=
  p.work.holdings + b.gains - b.losses

theorem holdings_ofPlan (p : Pass) (limit timeout : Nat) (plan : List Dispatch) :
    p.holdings (.ofPlan limit timeout plan) = p.work.holdings := by
  obtain ⟨hgains, hlosses⟩ := Batch.gains_ofPlan limit timeout plan
  rw [holdings, hgains, hlosses, add_zero, tsub_zero]

theorem holdings_congr (p : Pass) {b b' : Batch} (hgains : b'.gains = b.gains)
    (hlosses : b'.losses = b.losses) : p.holdings b' = p.holdings b := by
  rw [holdings, holdings, hgains, hlosses]

theorem holdings_gain {p : Pass} {b b' : Batch} {x : String × String}
    (hle : b.losses ≤ p.work.holdings + b.gains) (hgains : b'.gains = {x} + b.gains)
    (hlosses : b'.losses = b.losses) : p.holdings b' = x ::ₘ p.holdings b := by
  rw [holdings, hgains, hlosses, Multiset.singleton_add, Multiset.add_cons,
    Multiset.cons_sub_of_le _ hle, holdings]

theorem holdings_loss {p : Pass} {b b' : Batch} {x : String × String}
    (hle : b'.losses ≤ p.work.holdings + b'.gains) (hgains : b'.gains = b.gains)
    (hlosses : b'.losses = {x} + b.losses) : p.holdings b = x ::ₘ p.holdings b' := by
  rw [hgains, hlosses, Multiset.singleton_add] at hle
  rw [holdings, holdings, hgains, hlosses, Multiset.singleton_add]
  conv_lhs => rw [← tsub_add_cancel_of_le hle, Multiset.add_cons, ← Multiset.cons_add]
  exact add_tsub_cancel_right ..

theorem holdings_handOut (p : Pass) {cancelled : Bool} {b b' : Batch}
    (h : b.handOut cancelled = some b') : p.holdings b' = p.holdings b :=
  p.holdings_congr (Batch.gains_handOut h).1 (Batch.gains_handOut h).2

/-- No more is removed than there is. -/
theorem Sound.losses_le {p : Pass} (h : p.Sound) {b : Batch} (hplan : b.dispatches = p.plan) :
    b.losses ≤ p.work.holdings := by
  refine le_trans b.losses_le ?_
  rw [hplan]
  obtain ⟨l, hperm, hsub⟩ := List.subperm_of_subset h.targets_nodup h.targets_subset
  exact Multiset.coe_le.2 ⟨l.map Instance.holding, hperm.map _, hsub.map _⟩

/-- When all calls are over, the folded record has what the pass accounted for. -/
theorem Sound.holdings_concluded {p : Pass} (h : p.Sound) {b : Batch}
    (hplan : b.dispatches = p.plan) (hdone : b.isDone) (now : Nat) :
    (p.foldAll now b.outcomes).work.holdings = p.holdings b := by
  have hfold := foldAll_holdings h now ((Batch.outcomes_dispatches hdone).trans hplan).symm
  rw [b.sum_outcomes.1, b.sum_outcomes.2] at hfold
  rw [holdings, ← hfold, add_tsub_cancel_right]

/-- A call changes what the pass accounts for as it changes what the engine holds. -/
theorem Sound.holdings_callMove {p : Pass} (h : p.Sound) {b b' : Batch} {e e' : Engine} {k : Nat}
    (hplan : b.dispatches = p.plan) (he : e.Numbered) (hmove : b.CallMove e k b' e')
    (hle : p.holdings b ≤ e.holdings) :
    e'.Numbered ∧ p.holdings b' + e.holdings = p.holdings b + e'.holdings := by
  have hlosses : b.losses ≤ p.work.holdings + b.gains :=
    le_trans (h.losses_le hplan) (Multiset.le_add_right ..)
  have hlosses' : b'.losses ≤ p.work.holdings + b'.gains :=
    le_trans (h.losses_le (hmove.dispatches.trans hplan)) (Multiset.le_add_right ..)
  cases hmove with
  | @idle c status _ hcall hflight halike hstatus =>
    obtain ⟨hgain, hloss⟩ := Batch.gains_setStatus hcall hflight status
    obtain ⟨hnone, hnone'⟩ := Call.gains_of_status (c := { c with status }) hstatus
    rw [hnone, zero_add] at hgain
    rw [hnone', zero_add] at hloss
    refine ⟨halike.numbered he, ?_⟩
    rw [halike.holdings, p.holdings_congr hgain hloss]
  | @performed c e₁ hcall hflight halike =>
    obtain ⟨hgain, hloss⟩ := Batch.gains_setStatus hcall hflight (.done (c.dispatch.perform e₁).2)
    rw [← halike.holdings] at hle ⊢
    have he₁ := halike.numbered he
    obtain ⟨dispatch, status⟩ := c
    dsimp only at hgain hloss hlosses' ⊢
    cases hresult : (dispatch.perform e₁).2 with
    | error error =>
      -- a call that fails leaves the engine as it is
      obtain ⟨hnone, hnone'⟩ := Call.gains_of_status
        (c := ⟨dispatch, .done (.error error)⟩) (by simp)
      rw [hresult, hnone, zero_add] at hgain
      rw [hresult, hnone', zero_add] at hloss
      rw [Dispatch.perform_error hresult, p.holdings_congr hgain hloss]
      exact ⟨he₁, rfl⟩
    | ok handle =>
      rw [hresult] at hgain hloss hlosses'
      cases dispatch with
      | create node spec seq =>
        obtain ⟨hnumbered, hholdings⟩ := Dispatch.perform_create_ok he₁ hresult
        have hloss₀ : (b.setStatus k (.done (.ok handle))).losses = b.losses :=
          hloss.trans (zero_add _)
        refine ⟨hnumbered, ?_⟩
        rw [holdings_gain hlosses hgain hloss₀, hholdings, Multiset.cons_add, Multiset.add_cons]
      | remove target stale =>
        have hgain₀ : (b.setStatus k (.done (.ok handle))).gains = b.gains :=
          hgain.trans (zero_add _)
        have hsub := holdings_loss hlosses' hgain₀ hloss
        have hmem : target.holding ∈ e₁.holdings :=
          Multiset.mem_of_le hle (hsub ▸ Multiset.mem_cons_self ..)
        obtain ⟨hnumbered, hholdings⟩ := Dispatch.perform_remove_ok he₁ hresult hmem
        refine ⟨hnumbered, ?_⟩
        rw [hsub, hholdings, Multiset.cons_add, Multiset.add_cons]

end Pass

end FleetControl
