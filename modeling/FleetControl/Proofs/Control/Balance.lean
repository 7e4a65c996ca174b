import FleetControl.Proofs.Control.Accounts

/-!
# The accounts balance

The control plane accounts for what the engine holds (`Control.Balanced`), and every step keeps it
so (`Balanced.step`):

* most steps change neither the engine nor what is accounted for (`Balanced.keep`);
* when a process takes a turn, its slot accounts for the same containers before and after, in the
  pass, in the record or in what is left over (`Turn.heldAt`);
* a call to the engine changes both sides alike. It is never made for a slot that is not owned any
  more, because what such a slot plans is cancelled before it is handed out.
-/

namespace FleetControl

namespace Control

open Pass (WellPlaced WellPlanned)

/-- What is accounted for is what the engine holds. Where permits cannot be counted there is nothing
of either; what is planned for a slot that is not owned is never called. -/
structure Balanced (s : State) : Prop where
  numbered : s.engine.Numbered
  accounted : s.accounted = s.engine.holdings
  capped : Batch.maxPermits < (s.batchOf []).permits → s.engine.holdings = 0 ∧
    ∀ p errand i pass batch, ¬ s.IsWorking p errand i pass batch
  quiet : ∀ {p errand i pass batch}, s.IsWorking p errand i pass batch → ¬ s.Owned i →
    ∀ c ∈ batch.calls, ¬ c.isInFlight

namespace Balanced

variable {s s' : State} {p : ProcId} {errand : Errand} {old : Stage} {i : SlotId} {pass : Pass}
  {batch : Batch} {answer : Answer}

/-- A step in which nothing changes hands keeps the balance. -/
theorem keep (h : Balanced s) (hstill : Still s s') (hl : Locked s) (hl' : Locked s') :
    Balanced s' where
  numbered := by
    rw [Engine.Numbered, hstill.containers, hstill.nextHandle]
    exact h.numbered
  accounted := by rw [hstill.accounted hl hl', h.accounted, hstill.holdings]
  capped := fun hcap => by
    rw [State.batchOf, hstill.settings] at hcap
    obtain ⟨hnone, hidle⟩ := h.capped hcap
    refine ⟨by rw [hstill.holdings, hnone], fun p errand i pass batch hp => ?_⟩
    exact hidle p errand i pass batch ((hstill.working ..).1 hp)
  quiet := fun {p errand i pass batch} hp hi =>
    h.quiet ((hstill.working p errand i pass batch).1 hp) (mt (hstill.owned i).2 hi)

/-- Where a pass is under way, permits can be counted. -/
theorem permits_le (h : Balanced s) (hp : s.IsWorking p errand i pass batch) :
    (s.batchOf []).permits ≤ Batch.maxPermits :=
  Nat.le_of_not_lt fun hlt => (h.capped hlt).2 p errand i pass batch hp

theorem heldAt_le (h : Balanced s) (hi : i < s.slots.length) (howned : s.Owned i) :
    s.heldAt i ≤ s.engine.holdings := by
  have hshare : s.share i = s.heldAt i := if_pos howned
  rw [← h.accounted, ← hshare]
  exact le_trans (State.share_le_shares hi) (Multiset.le_add_right ..)

/-- The process that holds a slot goes on with a plan, while the engine changes as the slot does. -/
theorem work (h : Balanced s) (hl : Locked s) (hp : s.procs[p]? = some ⟨errand, old⟩)
    (hheld : old.held? = some i) (engine : Engine)
    (hl' : Locked (({ s with engine } : State).setStage p (.working i pass batch)))
    (hcap : (s.batchOf []).permits ≤ Batch.maxPermits) (hnumbered : engine.Numbered)
    (howned : s.Owned i → pass.holdings batch + s.engine.holdings = s.heldAt i + engine.holdings)
    (hquiet : ¬ s.Owned i → engine.holdings = s.engine.holdings ∧
      ∀ c ∈ batch.calls, ¬ c.isInFlight) :
    Balanced (({ s with engine } : State).setStage p (.working i pass batch)) := by
  set s₁ : State := { s with engine } with hs₁
  have hp₁ : s₁.procs[p]? = some ⟨errand, old⟩ := hp
  have hl₁ : Locked s₁ := hl
  set s' : State := s₁.setStage p (.working i pass batch) with hs'
  have hproc : s'.procs[p]? = some ⟨errand, .working i pass batch⟩ := State.procs_setStage_self hp₁ _
  have hslot : ∀ j, s'.Owned j ↔ s.Owned j := fun j =>
    State.owned_setStage hp₁ fun _ => (Stage.slot?_of_held hheld).symm
  have hshares : s'.shares + s.share i = s.shares + s'.share i :=
    State.shares_of_ne rfl (hl.placed_proc hp (Stage.slot?_of_held hheld))
      fun j hj => State.share_setStage_of_ne hl₁ hl' hp₁ hheld rfl hj
  have hleft : s'.leftovers = s.leftovers :=
    State.leftovers_setStage hp₁ (Stage.leftover_of_held hheld) rfl
  refine ⟨hnumbered, ?_, fun hover => absurd hover (Nat.not_lt.2 hcap), fun {q _ j _ _} hq hj => ?_⟩
  · -- a slot that is owned accounts for the pass; one that is not accounts for nothing
    by_cases hi : s.Owned i
    · have hshare : s.share i = s.heldAt i := if_pos hi
      have hshare' : s'.share i = pass.holdings batch :=
        (if_pos ((hslot i).2 hi)).trans (State.heldAt_working hl' hproc)
      rw [hshare, hshare'] at hshares
      refine add_right_cancel (b := s.heldAt i) ?_
      calc s'.accounted + s.heldAt i
          = s'.shares + s.heldAt i + s.leftovers := by
            rw [State.accounted, hleft]
            exact add_right_comm ..
        _ = pass.holdings batch + s.accounted := by
            rw [hshares, State.accounted]
            abel
        _ = engine.holdings + s.heldAt i := by rw [h.accounted, howned hi, add_comm]
    · have hshare : s.share i = 0 := if_neg hi
      have hshare' : s'.share i = 0 := if_neg (mt (hslot i).1 hi)
      rw [hshare, hshare', add_zero, add_zero] at hshares
      show s'.accounted = engine.holdings
      rw [State.accounted, hshares, hleft, ← State.accounted, h.accounted, (hquiet hi).1]
  -- of the passes under way only that of the process has changed
  · by_cases hpq : p = q
    · subst hpq
      cases hproc.symm.trans hq
      exact (hquiet (mt (hslot i).2 hj)).2
    · have hq₁ : s.IsWorking q _ j _ _ := (State.procs_setStage_of_ne hpq _).symm.trans hq
      exact h.quiet hq₁ (mt (hslot j).2 hj)

/-- A process that holds a slot ends. If it is a pass, the record has come to account for what the
slot did; if it is the end of the deployment, its answer has. -/
theorem endProc (h : Balanced s) (hl : Locked s) (hlisting : Listing s)
    (hp : s.procs[p]? = some ⟨errand, old⟩) (hheld : old.held? = some i)
    (hpass : errand.IsPass → (s.recordAt i).elim 0 Deployment.holdings = s.heldAt i ∧
      (Stage.ended answer).leftover = 0)
    (hdelete : ¬ errand.IsPass → (Stage.ended answer).leftover = s.heldAt i) :
    Balanced (s.endProc p i answer) := by
  have hl' := hl.endProc (State.stageAt_of_proc hp) hheld answer
  have hworking : ∀ {q errand' j pass' batch'},
      (s.endProc p i answer).IsWorking q errand' j pass' batch' →
        s.IsWorking q errand' j pass' batch' ∧ p ≠ q :=
    (State.isWorking_endProc hl hp hheld answer).1
  have hidle : (s.endProc p i answer).Idle i := by
    intro q errand' pass' batch' hq
    obtain ⟨hq, hpq⟩ := hworking hq
    exact hpq ((hq.eq_of_held hl hp hheld).1 rfl)
  have hne : ∀ j, j ≠ i → (s.endProc p i answer).share j = s.share j := fun j hj =>
    State.share_endProc_of_ne hl hp hheld answer hj
  have hlength : (s.endProc p i answer).slots.length = s.slots.length := State.length_release _
  have hleft := State.leftovers_endProc hl hp hheld answer
  obtain ⟨slots, procs, heq⟩ := State.endProc_eq (s := s) p i answer
  have hengine : (s.endProc p i answer).engine = s.engine := by rw [heq]
  refine ⟨hengine ▸ h.numbered, ?_, fun hcap => ?_, fun {q _ j _ _} hq hj => ?_⟩
  · rw [hengine, ← h.accounted, State.accounted, State.accounted, hleft]
    -- a pass leaves what it has to the record, the end of a deployment to its answer
    by_cases hper : errand.IsPass
    · obtain ⟨hrecord, hnone⟩ := hpass hper
      have hself : (s.endProc p i answer).share i = s.share i := by
        refine State.share_congr (State.owned_endProc hl hp hheld answer (.inr hper)) fun _ => ?_
        rw [State.heldAt_idle hl' hidle, State.recordAt_endProc, hrecord]
      have hshares : (s.endProc p i answer).shares = s.shares :=
        State.shares_congr hlength fun j => if hji : j = i then hji ▸ hself else hne j hji
      rw [hshares, hnone, add_zero]
    · have hshares := State.shares_of_ne hlength
        (hl.placed_proc hp (Stage.slot?_of_held hheld)) hne
      have hshare : s.share i = s.heldAt i :=
        if_pos (.inr ⟨p, errand, old, hp, hper, Stage.slot?_of_held hheld⟩)
      have hshare' : (s.endProc p i answer).share i = 0 :=
        if_neg (State.not_owned_endProc hl hlisting hp hheld answer hper)
      rw [hshare, hshare', add_zero, ← hdelete hper] at hshares
      rw [← hshares]
      abel
  · have hsettings : (s.endProc p i answer).settings = s.settings := by rw [heq]
    rw [State.batchOf, hsettings] at hcap
    obtain ⟨hnone, hidle'⟩ := h.capped hcap
    exact ⟨hengine ▸ hnone, fun q errand' j pass' batch' hq =>
      hidle' q errand' j pass' batch' (hworking hq).1⟩
  · have hji : j ≠ i := by
      rintro rfl
      exact hidle _ _ _ _ hq
    exact h.quiet (hworking hq).1 (mt (State.owned_endProc hl hp hheld answer (.inl hji)).2 hj)

/-- A new deployment has nothing yet. -/
theorem found (h : Balanced s) (hl : Locked s) {d : Deployment} (hd : d.instances = [])
    (hfresh : s.index.get? d.id = none) : Balanced (s.found d) := by
  have hl' := hl.found d
  have hlisted : ∀ {j : Nat}, j < s.slots.length → ((s.found d).Owned j ↔ s.Owned j) := by
    intro j hj
    refine or_congr (exists_congr fun id => ?_) Iff.rfl
    show (s.index.insert d.id s.slots.length).get? id = some j ↔ s.index.get? id = some j
    by_cases hid : id = d.id
    · subst hid
      rw [SortedMap.get?_insert_self, hfresh]
      exact iff_of_false (fun heq => Nat.ne_of_gt hj (Option.some.inj heq)) (by rintro ⟨⟩)
    · rw [SortedMap.get?_insert_of_ne hid]
  -- the slots that there were account for the same as before, the new one for nothing
  have hold : ∀ j ∈ Finset.range s.slots.length, (s.found d).share j = s.share j := by
    intro j hj
    have hlt := Finset.mem_range.1 hj
    refine State.share_congr (hlisted hlt) fun _ => State.heldAt_congr hl hl' (fun _ => ?_) ?_
    · rw [State.recordAt_found, if_neg (Nat.ne_of_lt hlt)]
    · exact fun _ _ _ _ => Iff.rfl
  have hidle : (s.found d).Idle s.slots.length := fun p errand pass batch hp =>
    Nat.lt_irrefl _ (hl.placed_proc hp rfl)
  have hnew : (s.found d).share s.slots.length = 0 := by
    have hheld : (s.found d).heldAt s.slots.length = 0 := by
      rw [State.heldAt_idle hl' hidle, State.recordAt_found, if_pos rfl, Option.elim_some,
        Deployment.holdings, hd]
      rfl
    rw [State.share, hheld, ite_self]
  have hlength : (s.found d).slots.length = s.slots.length + 1 := by simp [State.found]
  have hshares : (s.found d).shares = s.shares := by
    rw [State.shares, hlength, Finset.sum_range_succ, hnew, add_zero, State.shares]
    exact Finset.sum_congr rfl hold
  refine ⟨h.numbered, ?_, h.capped, fun {p _ j _ _} hp hj => h.quiet (s := s) hp ?_⟩
  · rw [State.accounted, hshares]
    exact h.accounted
  · have hlt := hl.placed_proc hp rfl
    exact mt (hlisted hlt).2 hj

end Balanced

/-! ### Turns -/

/-- All records are well placed, and all passes have begun well planned. -/
abbrev Orderly (s : State) : Prop :=
  Tracks (fun _ => WellPlaced s.registry) (fun _ _ _ => WellPlanned s.registry) s

section

variable {s s₁ : State} {p : ProcId} {errand : Errand} {i : SlotId} {progress : Progress}

theorem Orderly.sound (h : Orderly s) {pass : Pass} {batch : Batch}
    (hp : s.IsWorking p errand i pass batch) : pass.Sound ∧ batch.dispatches = pass.plan := by
  obtain ⟨hplan, p₀, outs, hb, hcourse⟩ := h.pass hp
  exact ⟨hcourse.sound hb.sound, hplan⟩

theorem Turn.still (h : Turn s p errand i s₁ progress) : Still s s₁ := by
  cases h with
  | @opened _ _ sl pass selector _ _ hslot _ =>
    have hmap : Still s (s.mapRecord i fun _ => sl.record.begun) := Still.mapRecord fun _ d hd => by
      rw [State.recordAt_of_slot hslot] at hd
      rw [Deployment.begun_holdings, Option.some.inj hd]
    exact hmap.trans (Still.of_eq rfl rfl rfl rfl rfl rfl)
  | drained _ _ => exact .refl s
  | concluded _ _ _ _ => exact .refl s

/-- What a slot accounts for goes on to what comes next in the turn. -/
theorem Turn.heldAt (h : Turn s p errand i s₁ progress) (hl : Locked s) (horderly : Orderly s) :
    s₁.heldAt i = progress.holdings := by
  rw [h.still.heldAt hl (hl.turn h)]
  cases h with
  | @opened _ _ sl pass selector hproc _ hslot hstart =>
    have hidle := State.idle_of_admitted hl hproc
    have hrecord := State.recordAt_of_slot hslot
    have hplaced := (horderly.record hrecord).begun
    rw [State.heldAt_idle hl hidle, hrecord, Option.elim_some, Pass.launch_holdings,
      Pass.start_holdings hplaced.known hstart, Deployment.begun_holdings]
  | @drained id _ sl hproc hslot =>
    rw [State.heldAt_idle hl (State.idle_of_admitted hl hproc), State.recordAt_of_slot hslot,
      Pass.launch_holdings]
    rfl
  | @concluded _ _ sl pass batch hproc _ _ hdone =>
    obtain ⟨hsound, hplan⟩ := horderly.sound hproc
    rw [State.heldAt_working hl hproc, Pass.conclude, Pass.proceed_holdings,
      hsound.holdings_concluded hplan hdone]

/-- A process that takes a turn keeps the balance, wherever it comes to. -/
theorem Balanced.turn (h : Balanced s) (hl : Locked s) (hlisting : Listing s)
    (horderly : Orderly s) (hturn : Turn s p errand i s₁ progress) {s' : State} (hl' : Locked s')
    (hfollow : Follow s₁ p errand i progress s') : Balanced s' := by
  have hl₁ := hl.turn hturn
  have h₁ := h.keep hturn.still hl hl₁
  have hheldAt := hturn.heldAt hl horderly
  have hlisting₁ : Listing s₁ := hlisting.turn hturn
  obtain ⟨stage, hproc, hheld⟩ := hturn.held
  cases hfollow with
  | dispatched pass hle =>
    refine h₁.work hl₁ hproc hheld s₁.engine hl' hle h₁.numbered (fun _ => ?_)
      fun _ => ⟨rfl, fun c hc => ?_⟩
    · -- before the first call a pass has what its record has
      rw [State.batchOf, Pass.holdings_ofPlan, hheldAt, Progress.holdings]
    · obtain ⟨x, -, rfl⟩ := List.mem_map.1 hc
      exact Bool.false_ne_true
  | aborted pass hlt =>
    -- where permits cannot be counted, nothing was ever made
    obtain ⟨hnone, hidle⟩ := h₁.capped hlt
    refine h₁.endProc hl₁ hlisting₁ hproc hheld (fun _ => ⟨?_, rfl⟩) fun hdelete => ?_
    · exact (State.heldAt_idle hl₁ fun q errand' => hidle q errand' i).symm
    · have hslot := Stage.slot?_of_held hheld
      have hle := h₁.heldAt_le (hl₁.placed_proc hproc hslot)
        (.inr ⟨p, errand, stage, hproc, hdelete, hslot⟩)
      rw [hnone] at hle
      exact (nonpos_iff_eq_zero.1 hle).symm
  | published work report hpass =>
    have habsorb : ∀ d : Deployment, (d.absorb work).holdings = work.holdings := fun d => by
      rw [Deployment.holdings, Deployment.absorb_instances, Deployment.holdings]
    have hstill : Still s₁ (s₁.mapRecord i (·.absorb work)) := Still.mapRecord fun hidle d hd => by
      have hrecord := State.heldAt_idle hl₁ hidle
      rw [hd, Option.elim_some, hheldAt] at hrecord
      exact (habsorb d).trans hrecord
    have hl₂ : Locked (s₁.mapRecord i (·.absorb work)) := hl₁.mapRecord ..
    refine (h₁.keep hstill hl₁ hl₂).endProc hl₂ (hlisting₁.mapRecord ..) hproc hheld
      (fun _ => ⟨?_, ?_⟩) fun hdelete => absurd hpass hdelete
    · obtain ⟨sl, hslot⟩ := State.slot_of_holder
        ((hl₁.holds p i).2 (by rw [State.stageAt_of_proc hproc]; exact hheld))
      rw [hstill.heldAt hl₁ hl₂, hheldAt, State.recordAt_mapRecord, if_pos rfl,
        State.recordAt_of_slot hslot]
      exact habsorb _
    · cases errand with
      | delete id => exact absurd rfl (hpass id)
      | _ => rfl
  | deleted id work report hdelete =>
    refine h₁.endProc hl₁ hlisting₁ hproc hheld (fun hpass => absurd hdelete (hpass id)) fun _ => ?_
    rw [hheldAt]
    rfl

end

/-- A request without an id is given one that is not in use, no node leaves the registry, and no
container is removed behind the back of the control plane. -/
def isCareful (s : State) : Label → Bool
  | .submit request fresh =>
    !request.deploymentId.all Text.isBlank || (s.index.get? fresh).isNone
  | .change (.deregister _) | .change (.kill _) => false
  | _ => true

theorem freshId_of_isCareful {s : State} {l : Label} (h : isCareful s l) : FreshId s l := by
  cases l with
  | submit request fresh =>
    intro hblank
    rw [isCareful, hblank] at h
    exact Option.isNone_iff_eq_none.1 h
  | _ => trivial

/-- A slot that is not owned any more is cancelled. -/
theorem Listing.cancelled_of_not_owned {s : State} (h : Listing s) {i : SlotId} {sl : Slot}
    (hslot : s.slots[i]? = some sl) (hi : ¬ s.Owned i) : sl.cancelled = true := by
  have hcancelled : s.cancelledAt i = some sl.cancelled := by rw [State.cancelledAt, hslot]; rfl
  cases hflag : sl.cancelled with
  | true => rfl
  | false =>
    rw [hflag] at hcancelled
    rcases h.cancelled hcancelled with hlist | ⟨p, errand, hp⟩
    · exact absurd (.inl hlist) hi
    · exact absurd (.inr ⟨p, errand, .flag i, hp, h.flag hp, rfl⟩) hi

/-- Cancelling what is left begins no call. -/
theorem isInFlight_of_cancel {c : Call} (h : c.cancel.isInFlight) : c.isInFlight := by
  obtain ⟨dispatch, status⟩ := c
  cases status <;> exact h

/-- **Every step keeps the balance**, as long as no container is removed from outside. -/
theorem Balanced.step {s s' : State} {l : Label} (h : Balanced s) (hl : Locked s)
    (hlisting : Listing s) (horderly : Orderly s) (hcareful : isCareful s l)
    (hstep : step s l = some s') : Balanced s' := by
  have hl' : Locked s' := hl.step (fun _ _ hget => hlisting.bound hget) hstep
  cases moves_of_step hstep with
  | refused e _ => exact h.keep (Still.spawn (.inr rfl) rfl rfl) hl hl'
  | revised _ _ =>
    refine h.keep (Still.trans (Still.mapRecord fun _ d _ => ?_) (Still.spawn (.inr rfl) rfl rfl))
      hl hl'
    rfl
  | @founded request fresh _ hexist =>
    have hunlisted := newRecord_unlisted hexist (freshId_of_isCareful hcareful)
    exact (h.found hl rfl hunlisted).keep (Still.spawn (.inr rfl) rfl rfl) (hl.found _) hl'
  | triggered id => exact h.keep (Still.spawn (.inr rfl) rfl rfl) hl hl'
  | unknown _ => exact h.keep (Still.spawn (.inr rfl) rfl rfl) hl hl'
  | unlisted hget => exact h.keep (Still.unlist hget) hl hl'
  | swept =>
    refine h.keep (State.sweep_induction (.refl s) fun s₁ id i hs₁ _ _ => ?_) hl hl'
    exact hs₁.trans (Still.spawn (.inl (by rintro _ ⟨⟩)) rfl rfl)
  | missed hproc _ =>
    refine h.keep (Still.setStage hproc rfl rfl (fun hdelete => ?_) rfl rfl) hl hl'
    exact absurd (hlisting.lookup hproc) hdelete
  | looked hproc _ =>
    refine h.keep (Still.setStage hproc rfl rfl (fun hdelete => ?_) rfl rfl) hl hl'
    exact absurd (hlisting.lookup hproc) hdelete
  | flagged hproc =>
    exact h.keep (Still.lockStep hproc (fun _ => by rfl) rfl rfl rfl rfl rfl) hl hl'
  | locked hproc _ _ =>
    exact h.keep (Still.lockStep hproc (fun _ => by rfl) rfl rfl rfl rfl rfl) hl hl'
  | waited hproc _ _ =>
    exact h.keep (Still.lockStep hproc (fun _ => by rfl) rfl rfl rfl rfl rfl) hl hl'
  | @unplaced p errand i sl work e hproc hpass hslot hstart =>
    have hrecord := State.recordAt_of_slot hslot
    have hplaced := (horderly.record hrecord).begun
    rw [State.mapRecord_mapRecord] at hl' ⊢
    have hstill : Still s (s.mapRecord i fun _ => sl.record.begun.absorb work) :=
      Still.mapRecord fun _ d hd => by
        cases hrecord.symm.trans hd
        rw [Deployment.holdings, Deployment.absorb_instances, ← Deployment.holdings,
          Pass.start_failed_holdings hplaced.known hstart, Deployment.begun_holdings]
    have hl₁ : Locked (s.mapRecord i fun _ => sl.record.begun.absorb work) := hl.mapRecord ..
    have hproc₁ : (s.mapRecord i fun _ => sl.record.begun.absorb work).procs[p]? =
        some ⟨errand, .admitted i⟩ := hproc
    exact h.keep (hstill.trans (Still.endProc hl₁ hproc₁ rfl rfl hpass rfl)) hl hl'
  | turned hturn hfollow => exact h.turn hl hlisting horderly hturn hl' hfollow
  | @issued p errand i sl pass batch batch' hproc hslot hout =>
    refine h.work hl hproc rfl s.engine hl' (h.permits_le hproc) h.numbered (fun _ => ?_) fun hi =>
      ⟨rfl, ?_⟩
    · rw [Pass.holdings_handOut pass hout, State.heldAt_working hl hproc]
    · -- what is not owned is cancelled, so no call is handed out for it
      have hpass : errand.IsPass := by
        by_contra hdelete
        exact hi (.inr ⟨p, errand, _, hproc, hdelete, rfl⟩)
      have hcancelled : State.isCancelled errand sl = true := by
        cases errand with
        | delete id => exact absurd rfl (hpass id)
        | _ => exact hlisting.cancelled_of_not_owned hslot hi
      rw [hcancelled] at hout
      obtain ⟨-, -, rfl⟩ := Batch.handOut_eq_some hout
      intro c hc hflight
      obtain ⟨c₀, hc₀, rfl⟩ := List.mem_map.1 hc
      exact h.quiet hproc hi c₀ hc₀ (isInFlight_of_cancel hflight)
  | @called l p errand i pass batch batch' engine k hproc hcall =>
    have hmove := callMove_of_called hcall
    -- a call in flight belongs to a slot that is owned
    have hi : s.Owned i := by
      by_contra hi
      obtain ⟨c, hc, hflight⟩ := hmove.inFlight
      exact h.quiet hproc hi c hc hflight
    have hheldAt := State.heldAt_working hl hproc
    have hle := h.heldAt_le (hl.placed_proc hproc rfl) hi
    rw [hheldAt] at hle
    obtain ⟨hsound, hplan⟩ := horderly.sound hproc
    obtain ⟨hnumbered, hholdings⟩ := hsound.holdings_callMove hplan h.numbered hmove hle
    refine h.work hl hproc rfl engine hl' (h.permits_le hproc) hnumbered (fun _ => ?_)
      fun hnot => absurd hi hnot
    rw [hheldAt, hholdings]
  | elapsed now _ => exact h.keep (Still.of_eq rfl rfl rfl rfl rfl rfl) hl hl'
  | changed c =>
    refine h.keep ?_ hl hl'
    cases c with
    | kill handle => cases hcareful
    | fail nodeId =>
      -- that a node fails takes no container away
      have hfail : ∃ failing, s.engine.fail nodeId = { s.engine with failing } := by
        unfold Engine.fail
        split
        · exact ⟨s.engine.failing, rfl⟩
        · exact ⟨_, rfl⟩
      obtain ⟨failing, heq⟩ := hfail
      exact Still.of_eq (by rw [Change.apply, heq]) (by rw [Change.apply, heq]) rfl rfl rfl rfl
    | _ => exact Still.of_eq rfl rfl rfl rfl rfl rfl

end Control

end FleetControl
