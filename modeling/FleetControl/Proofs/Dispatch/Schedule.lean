import FleetControl.Proofs.Dispatch.Order
import FleetControl.Proofs.Lists

/-!
# When the calls of a batch begin and end

If time goes by only while no call can go on, call `k` begins by `k / permits` time limits after the
batch (`Batch.OnTime`). When a call has to wait for a permit, all permits are with calls before it,
one of which is at least as many places ahead as there are permits and is over by then
(`Batch.OnTime.elapse`). A log of the calls that have begun (`Batch.Logged`) has each once and in
time, and in the order of the plan as far as the clock tells.
-/

namespace FleetControl

namespace Batch

variable {e : Engine} {b b' : Batch} {m m' k now : Nat} {place : Option Nat}

/-! ### Time -/

/-- Calls begin and end in time: call `k` of a batch that began at `start` has begun by
`k / permits` time limits later, and is over within another. -/
structure OnTime (start now : Nat) (b : Batch) : Prop where
  due : ∀ {k x due givenUp}, b.calls[k]? = some ⟨x, .running due givenUp⟩ →
    now ≤ due ∧ due ≤ start + (k / b.permits + 1) * b.timeout
  waiting : ∀ {k c}, b.calls[k]? = some c → c.hasBegun = false →
    now ≤ start + k / b.permits * b.timeout

theorem onTime_ofPlan (now limit timeout : Nat) (plan : List Dispatch) :
    (ofPlan limit timeout plan).OnTime now now := by
  refine ⟨fun {k x due givenUp} hc => ?_, fun _ _ => Nat.le_add_right ..⟩
  obtain ⟨x', -, heq⟩ := List.mem_map.1 (List.mem_of_getElem? hc)
  cases heq

/-- **Moves take no time**, and a call that begins is due within the time limit. -/
theorem Advances.onTime {start : Nat} (hmove : Advances e now m b place m' b')
    (h : b.OnTime start now) : b'.OnTime start now := by
  cases hmove with
  | issued hx _ =>
    constructor
    · intro k y due givenUp hk
      rcases of_setStatus hk with ⟨-, hk⟩ | ⟨rfl, c₀, h₀, heq⟩
      · exact h.due hk
      · cases heq
    · intro k c hk hwaits
      rcases of_setStatus hk with ⟨-, hk⟩ | ⟨rfl, c₀, h₀, rfl⟩
      · exact h.waiting hk hwaits
      · exact h.waiting hx rfl
  | cancelled =>
    constructor
    · intro k y due givenUp hk
      obtain ⟨c₀, h₀, heq⟩ := of_map_cancel hk
      rcases c₀.cancel_eq with ⟨-, hsame⟩ | ⟨-, hsame⟩
      · rw [hsame] at heq
        exact h.due (heq ▸ h₀)
      · rw [hsame] at heq
        cases heq
    · intro k c hk hwaits
      obtain ⟨c₀, h₀, rfl⟩ := of_map_cancel hk
      rcases c₀.cancel_eq with ⟨-, hsame⟩ | ⟨-, hsame⟩
      · rw [hsame] at hwaits
        exact h.waiting h₀ hwaits
      · rw [hsame] at hwaits
        cases hwaits
  | @begun j x status hx hstarted _ hdue =>
    constructor
    · intro k y due givenUp hk
      rcases of_setStatus hk with ⟨-, hk⟩ | ⟨rfl, c₀, h₀, heq⟩
      · exact h.due hk
      · -- the call begins in time, and is due a time limit later at most
        cases heq
        have hnow := h.waiting hx rfl
        have hwhen := hdue due givenUp rfl
        show now ≤ due ∧ due ≤ start + (k / b.permits + 1) * b.timeout
        rw [Nat.succ_mul]
        omega
    · intro k c hk hwaits
      rcases of_setStatus hk with ⟨-, hk⟩ | ⟨rfl, c₀, h₀, rfl⟩
      · exact h.waiting hk hwaits
      · cases hx.symm.trans h₀
        rw [Call.hasStarted, hwaits] at hstarted
        cases hstarted
  | ended hx _ _ =>
    constructor
    · intro k y due givenUp hk
      rcases of_setStatus hk with ⟨-, hk⟩ | ⟨rfl, c₀, h₀, heq⟩
      · exact h.due hk
      · cases heq
    · intro k c hk hwaits
      rcases of_setStatus hk with ⟨-, hk⟩ | ⟨rfl, c₀, h₀, rfl⟩
      · exact h.waiting hk hwaits
      · cases hwaits

/-- **Time goes by without a delay**, if nothing else can go on. -/
theorem OnTime.elapse {start later : Nat} (h : b.OnTime start now) (hordered : b.Ordered m)
    (hpermits : 0 < b.permits) (hstalled : b.Stalled) (hdue : b.DueFrom later) :
    b.OnTime start later := by
  refine ⟨fun hk => ⟨hdue _ _ _ _ hk, (h.due hk).2⟩, fun {k c} hk hwaits => ?_⟩
  have hpending : c.isPending := by
    obtain ⟨x, status⟩ := c
    cases status with
    | pending => rfl
    | issued => exact absurd ⟨x, hk⟩ (hstalled.begun k)
    | _ => cases hwaits
  have hmk : m ≤ k := by
    by_contra hlt
    have hout := hordered.handedOut hk (Nat.lt_of_not_le hlt)
    rw [(Call.isHandedOut_iff.1 hout).1] at hpending
    cases hpending
  -- a call that holds a permit is `permits` places ahead, and time stops before it is due
  obtain ⟨j, c', hj, hflight, hjm⟩ := Lists.exists_early hpermits
    (hstalled.full (List.any_eq_true.2 ⟨c, List.mem_of_getElem? hk, hpending⟩))
    fun j c' hj hflight => hordered.lt hj (Call.isHandedOut_of_isInFlight hflight)
  obtain ⟨x, status⟩ := c'
  cases status with
  | issued => exact absurd ⟨x, hj⟩ (hstalled.begun j)
  | running due givenUp =>
    have hlimit := (h.due hj).2
    have hdue := hdue j x due givenUp hj
    have hplaces : j / b.permits + 1 ≤ k / b.permits := by
      rw [← Nat.add_div_right j hpermits]
      exact Nat.div_le_div_right (Nat.le_trans hjm hmk)
    have hmul := Nat.mul_le_mul_right b.timeout hplaces
    omega
  | _ => cases hflight

/-- **A batch is over in time.** -/
theorem OnTime.now_le {start : Nat} (h : b.OnTime start now) (hpermits : 0 < b.permits)
    (hdone : b.isDone = false) :
    now ≤ start + (b.calls.length + b.permits - 1) / b.permits * b.timeout := by
  rw [isDone, List.all_eq_false] at hdone
  obtain ⟨⟨x, status⟩, hc, hnot⟩ := hdone
  obtain ⟨k, hk⟩ := List.mem_iff_getElem?.1 hc
  obtain ⟨hlt, -⟩ := List.getElem?_eq_some_iff.1 hk
  have hplaces : k / b.permits + 1 ≤ (b.calls.length + b.permits - 1) / b.permits := by
    rw [← Nat.add_div_right k hpermits]
    exact Nat.div_le_div_right (by omega)
  have hmul := Nat.mul_le_mul_right b.timeout hplaces
  rw [Nat.succ_mul] at hmul
  cases status with
  | pending => have := h.waiting hk rfl; omega
  | issued => have := h.waiting hk rfl; omega
  | running due givenUp =>
    obtain ⟨hnow, hdue⟩ := h.due hk
    rw [Nat.succ_mul] at hdue
    omega
  | done result => exact absurd rfl hnot

/-! ### The calls that have begun -/

/-- The log has the calls that have begun, each with its time: in time, and in the order of the plan
as far as the clock tells. -/
structure Logged (start now : Nat) (b : Batch) (log : List (Nat × Nat)) : Prop where
  nodup : (log.map Prod.fst).Nodup
  mem_iff : ∀ k, k ∈ log.map Prod.fst ↔ (b.calls[k]?).any Call.hasStarted
  le_now : ∀ x ∈ log, x.2 ≤ now
  early : ∀ x ∈ log, x.2 ≤ start + x.1 / b.permits * b.timeout
  sorted : ∀ x ∈ log, ∀ y ∈ log, x.1 < y.1 → x.2 ≤ y.2
  /-- A call that is ready is not kept waiting by others. -/
  fresh : ∀ x ∈ log, ∀ k, b.Ready k → k < x.1 → x.2 = now

theorem logged_ofPlan (now limit timeout : Nat) (plan : List Dispatch) :
    (ofPlan limit timeout plan).Logged now now [] := by
  refine ⟨List.nodup_nil, fun k => ?_, ?_, ?_, ?_, ?_⟩
  · cases hk : (ofPlan limit timeout plan).calls[k]? with
    | none => simp
    | some c =>
      obtain ⟨x, -, rfl⟩ := List.mem_map.1 (List.mem_of_getElem? hk)
      simp [Call.hasStarted, Call.hasBegun]
  all_goals exact fun x hx => absurd hx List.not_mem_nil

/-- The calls that have begun change by the call that begins. -/
theorem Advances.hasStarted (hmove : Advances e now m b place m' b') (j : Nat) :
    (b'.calls[j]?).any Call.hasStarted =
      ((b.calls[j]?).any Call.hasStarted || place == some j) := by
  have hsame : ∀ {k : Nat} {c : Call} {status : CallStatus}, b.calls[k]? = some c →
      Call.hasStarted { c with status } = c.hasStarted →
      ((b.setStatus k status).calls[j]?).any Call.hasStarted =
        (b.calls[j]?).any Call.hasStarted := by
    intro k c status hk heq
    rw [setStatus_getElem?]
    split
    · next hkj => rw [← hkj, hk, Option.map_some, Option.any_some, Option.any_some, heq]
    · rfl
  cases hmove with
  | @issued x hx _ =>
    rw [@hsame m ⟨x, .pending⟩ .issued hx rfl]
    simp
  | cancelled =>
    rw [List.getElem?_map]
    cases hj : b.calls[j]? with
    | none => rfl
    | some c =>
      rw [Option.map_some, Option.any_some, Option.any_some]
      rcases c.cancel_eq with ⟨-, heq⟩ | ⟨hpending, heq⟩
      · rw [heq]
        simp
      · obtain ⟨x, status⟩ := c
        rw [heq]
        cases status <;> first | rfl | cases hpending
  | @begun k x status hx hstarted _ _ =>
    rw [setStatus_getElem?]
    by_cases hkj : k = j
    · subst hkj
      rw [if_pos rfl, hx, Option.map_some, Option.any_some, hstarted]
      simp
    · rw [if_neg hkj, beq_false_of_ne (by simpa using hkj), Bool.or_false]
  | @ended k x due givenUp result hx hresult _ =>
    rw [@hsame k ⟨x, .running due givenUp⟩ (.done result) hx (Call.hasStarted_done x hresult)]
    simp

/-- A call that begins was handed out before. -/
theorem Advances.ready (hmove : Advances e now m b (some k) m' b') : b.Ready k := by
  cases hmove with
  | begun hx _ _ _ => exact ⟨_, hx⟩

/-- A call that is ready was so before, or has just been handed out. -/
theorem Advances.ready_before (hmove : Advances e now m b place m' b') (hk : b'.Ready k) :
    k = m ∨ b.Ready k := by
  obtain ⟨x, hk⟩ := hk
  cases hmove with
  | issued _ _ =>
    rcases of_setStatus hk with ⟨-, hk⟩ | ⟨rfl, -⟩
    · exact .inr ⟨x, hk⟩
    · exact .inl rfl
  | cancelled =>
    obtain ⟨c₀, h₀, heq⟩ := of_map_cancel hk
    rcases c₀.cancel_eq with ⟨-, hsame⟩ | ⟨-, hsame⟩
    · exact .inr ⟨x, by rw [h₀, heq, hsame]⟩
    · rw [hsame] at heq
      cases heq
  | begun _ hstarted _ _ =>
    rcases of_setStatus hk with ⟨-, hk⟩ | ⟨-, c₀, -, heq⟩
    · exact .inr ⟨x, hk⟩
    · cases heq
      cases hstarted
  | ended _ _ _ =>
    rcases of_setStatus hk with ⟨-, hk⟩ | ⟨-, c₀, -, heq⟩
    · exact .inr ⟨x, hk⟩
    · cases heq

theorem Logged.lt {start : Nat} {log : List (Nat × Nat)} (h : b.Logged start now log)
    (hordered : b.Ordered m) {x : Nat × Nat} (hx : x ∈ log) : x.1 < m := by
  obtain ⟨c, hc, hstarted⟩ := (Option.any_eq_true _ _).1
    ((h.mem_iff x.1).1 (List.mem_map_of_mem hx))
  exact hordered.lt hc (Call.isHandedOut_of_hasStarted hstarted)

theorem Logged.notMem {start : Nat} {log : List (Nat × Nat)} (h : b.Logged start now log)
    (hk : b.Ready k) : k ∉ log.map Prod.fst := by
  obtain ⟨x, hk⟩ := hk
  rw [h.mem_iff, hk]
  exact Bool.false_ne_true

/-- **Calls begin once each, in time, and in the order of the plan.** -/
theorem Advances.logged {start : Nat} {log : List (Nat × Nat)}
    (hmove : Advances e now m b place m' b') (hordered : b.Ordered m)
    (htime : b.OnTime start now) (h : b.Logged start now log) :
    b'.Logged start now (log ++ place.toList.map (·, now)) := by
  obtain ⟨hpermits, htimeout, -⟩ := hmove.limits
  have hold : ∀ x ∈ log, ∀ k, b'.Ready k → k < x.1 → x.2 = now := by
    intro x hx k hk hlt
    rcases hmove.ready_before hk with rfl | hk
    · exact absurd (h.lt hordered hx) (Nat.not_lt.2 (Nat.le_of_lt hlt))
    · exact h.fresh x hx k hk hlt
  cases hplace : place with
  | none =>
    rw [Option.toList_none, List.map_nil, List.append_nil]
    refine ⟨h.nodup, fun k => ?_, h.le_now, ?_, h.sorted, hold⟩
    · rw [h.mem_iff, hmove.hasStarted, hplace]
      simp
    · rw [hpermits, htimeout]
      exact h.early
  | some k =>
    have hready : b.Ready k := Advances.ready (hplace ▸ hmove)
    rw [Option.toList_some, List.map_singleton]
    refine ⟨?_, fun j => ?_, fun y hy => ?_, fun y hy => ?_, fun y hy z hz hlt => ?_,
      fun y hy j hj hlt => ?_⟩
    · rw [List.map_append, List.map_singleton]
      refine List.nodup_append.2 ⟨h.nodup, List.pairwise_singleton _ k, ?_⟩
      rintro j hj i hi rfl
      cases List.mem_singleton.1 hi
      exact h.notMem hready hj
    · rw [List.map_append, List.map_singleton, List.mem_append, h.mem_iff, hmove.hasStarted,
        hplace, Bool.or_eq_true, List.mem_singleton, beq_iff_eq, Option.some_inj, eq_comm (a := j)]
    · rcases List.mem_append.1 hy with hy | hy
      · exact h.le_now y hy
      · cases List.mem_singleton.1 hy
        exact Nat.le_refl now
    · rw [hpermits, htimeout]
      rcases List.mem_append.1 hy with hy | hy
      · exact h.early y hy
      · cases List.mem_singleton.1 hy
        obtain ⟨x, hx⟩ := hready
        exact htime.waiting hx rfl
    · rcases List.mem_append.1 hy with hy | hy <;> rcases List.mem_append.1 hz with hz | hz
      · exact h.sorted y hy z hz hlt
      · cases List.mem_singleton.1 hz
        exact h.le_now y hy
      · -- calls behind the one that begins have overtaken it just now, if at all
        cases List.mem_singleton.1 hy
        exact Nat.le_of_eq (h.fresh z hz k hready hlt).symm
      · cases List.mem_singleton.1 hy
        cases List.mem_singleton.1 hz
        exact Nat.le_refl now
    · rcases List.mem_append.1 hy with hy | hy
      · exact hold y hy j hj hlt
      · cases List.mem_singleton.1 hy
        rfl

/-- Time goes by when no call is ready. -/
theorem Logged.elapse {start later : Nat} {log : List (Nat × Nat)} (h : b.Logged start now log)
    (hlater : now ≤ later) (hbegun : ∀ k, ¬ b.Ready k) : b.Logged start later log where
  nodup := h.nodup
  mem_iff := h.mem_iff
  le_now := fun x hx => Nat.le_trans (h.le_now x hx) hlater
  early := h.early
  sorted := h.sorted
  fresh := fun _ _ k hk _ => absurd hk (hbegun k)

/-- **Where calls begin in turn, they begin in the order of the plan.** -/
theorem Logged.inTurn {start : Nat} {log : List (Nat × Nat)} (h : b.Logged start now log)
    (hordered : b.Ordered m) (hlog : log.map Prod.fst = List.range log.length) (hk : b.Ready k)
    (hturn : ∀ j < k, ¬ b.Ready j) : k = log.length := by
  have hnew := h.notMem hk
  rw [hlog, List.mem_range] at hnew
  refine Nat.le_antisymm ?_ (Nat.le_of_not_lt hnew)
  by_contra hlt
  have hlast : log.length < k := Nat.lt_of_not_le hlt
  obtain ⟨x, hx⟩ := hk
  have hkm := hordered.lt hx rfl
  obtain ⟨c, hc⟩ : ∃ c, b.calls[log.length]? = some c :=
    ⟨_, List.getElem?_eq_getElem (Nat.lt_of_lt_of_le (Nat.lt_trans hlast hkm) hordered.le)⟩
  have hout := hordered.handedOut hc (Nat.lt_trans hlast hkm)
  -- the first call that is not in the log was handed out, so it is ready
  have hnot : c.hasStarted = false := by
    have hnone := (h.mem_iff log.length).not.1 (by rw [hlog]; simp)
    rw [hc, Option.any_some, Bool.not_eq_true] at hnone
    exact hnone
  obtain ⟨hpending, hcancelled⟩ := Call.isHandedOut_iff.1 hout
  rw [Call.hasStarted, hcancelled, Bool.not_false, Bool.and_true] at hnot
  obtain ⟨y, status⟩ := c
  cases status with
  | pending => cases hpending
  | issued => exact hturn _ hlast ⟨y, hc⟩
  | running due givenUp => cases hnot
  | done result => cases hnot

end Batch

end FleetControl
