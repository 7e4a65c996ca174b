import FleetControl.Proofs.Control.Listing
import FleetControl.Proofs.Control.Tracks
import FleetControl.Proofs.Lists
import FleetControl.Proofs.Pass.Holdings
import Mathlib.Algebra.Order.BigOperators.Group.Finset

/-!
# The accounts of the control plane

What the control plane accounts for (`State.accounted`) is what the slots have that are owned, in
their record or in the pass under way on it (`State.share`), and what deletions have left over
(`State.leftovers`). The lemmas here say what becomes of it:

* `State.share_setStage_of_ne`, `State.share_endProc_of_ne` : a process that holds a slot touches
  the share of no other slot;
* `Still.accounted` : most changes leave all shares and leftovers as they are (`Control.Still`).
-/

namespace FleetControl

namespace Control

namespace Stage

/-- The plan that a process at the stage has under way. -/
def plan? : Stage → Option (Pass × Batch)
  | .working _ pass batch => some (pass, batch)
  | _ => none

/-- What a process at the stage has left over of a deployment that it deleted. -/
def leftover : Stage → Multiset (String × String)
  | .ended (.deleted final) => final.holdings
  | _ => 0

theorem leftover_of_held {stage : Stage} {i : SlotId} (h : stage.held? = some i) :
    stage.leftover = 0 := by
  cases stage <;> first | rfl | cases h

theorem eq_working {stage : Stage} {i : SlotId} {pass : Pass} {batch : Batch}
    (hheld : stage.held? = some i) (hplan : stage.plan? = some (pass, batch)) :
    stage = .working i pass batch := by
  cases stage <;> cases hheld <;> cases hplan
  rfl

end Stage

namespace State

/-! ### What is accounted for -/

/-- The plan under way on a slot. -/
def planAt (s : State) (i : SlotId) : Option (Pass × Batch) :=
  ((s.holder i).bind s.stageAt).bind Stage.plan?

/-- What the slot accounts for: the pass under way on it, or else its record. -/
def heldAt (s : State) (i : SlotId) : Multiset (String × String) :=
  match s.planAt i with
  | some (pass, batch) => pass.holdings batch
  | none => (s.recordAt i).elim 0 Deployment.holdings

open Classical in
/-- What the slot accounts for as long as it is owned. -/
noncomputable def share (s : State) (i : SlotId) : Multiset (String × String) :=
  if s.Owned i then s.heldAt i else 0

/-- What a process has left over. -/
def leftoverAt (s : State) (p : ProcId) : Multiset (String × String) :=
  (s.stageAt p).elim 0 Stage.leftover

/-- What the slots account for. -/
noncomputable def shares (s : State) : Multiset (String × String) :=
  ∑ i ∈ Finset.range s.slots.length, s.share i

/-- What all processes have left over. -/
def leftovers (s : State) : Multiset (String × String) :=
  ∑ p ∈ Finset.range s.procs.size, s.leftoverAt p

/-- All that is accounted for. -/
noncomputable def accounted (s : State) : Multiset (String × String) := s.shares + s.leftovers

/-- No pass is under way on the slot. -/
def Idle (s : State) (i : SlotId) : Prop :=
  ∀ p errand pass batch, ¬ s.IsWorking p errand i pass batch

variable {s s' : State} {p q : ProcId} {i j : SlotId} {errand errand' : Errand}
  {old new : Stage} {pass : Pass} {batch : Batch}

theorem IsWorking.held (h : s.IsWorking p errand i pass batch) :
    s.stageAt p = some (.working i pass batch) ∧ (Stage.working i pass batch).held? = some i :=
  ⟨stageAt_of_proc h, rfl⟩

theorem planAt_eq_some (h : Locked s) :
    s.planAt i = some (pass, batch) ↔ ∃ p errand, s.IsWorking p errand i pass batch := by
  rw [planAt]
  constructor
  · intro hplan
    obtain ⟨stage, hstage, hstage'⟩ := Option.bind_eq_some_iff.1 hplan
    obtain ⟨p, hp, hproc⟩ := Option.bind_eq_some_iff.1 hstage
    have hheld := (h.holds p i).1 hp
    rw [hproc] at hheld
    -- the holder of the slot is the one that works on it
    cases Stage.eq_working hheld hstage'
    obtain ⟨⟨errand, _⟩, hproc, rfl⟩ := Option.map_eq_some_iff.1 hproc
    exact ⟨p, errand, hproc⟩
  · rintro ⟨p, errand, hp⟩
    have hholder := (h.holds p i).2 (by rw [hp.held.1]; rfl)
    rw [hholder, Option.bind_some, hp.held.1]
    rfl

theorem heldAt_working (h : Locked s) (hp : s.IsWorking p errand i pass batch) :
    s.heldAt i = pass.holdings batch := by
  rw [heldAt, (planAt_eq_some h).2 ⟨p, errand, hp⟩]

theorem heldAt_idle (h : Locked s) (hidle : s.Idle i) :
    s.heldAt i = (s.recordAt i).elim 0 Deployment.holdings := by
  have hplan : s.planAt i = none := by
    rw [Option.eq_none_iff_forall_ne_some]
    rintro ⟨pass, batch⟩ hplan
    obtain ⟨p, errand, hp⟩ := (planAt_eq_some h).1 hplan
    exact hidle p errand pass batch hp
  rw [heldAt, hplan]

/-- What a slot accounts for depends on the passes under way on it, and on its record if there are
none. -/
theorem heldAt_congr (h : Locked s) (h' : Locked s')
    (hrecord : s.Idle i → (s'.recordAt i).elim 0 Deployment.holdings =
      (s.recordAt i).elim 0 Deployment.holdings)
    (hwork : ∀ p errand pass batch,
      s'.IsWorking p errand i pass batch ↔ s.IsWorking p errand i pass batch) :
    s'.heldAt i = s.heldAt i := by
  by_cases hidle : s.Idle i
  · have hidle' : s'.Idle i := fun p errand pass batch =>
      mt (hwork p errand pass batch).1 (hidle p errand pass batch)
    rw [heldAt_idle h hidle, heldAt_idle h' hidle', hrecord hidle]
  · obtain ⟨p, errand, pass, batch, hp⟩ :
        ∃ p errand pass batch, s.IsWorking p errand i pass batch := by
      simpa only [Idle, not_forall, not_not] using hidle
    rw [heldAt_working h hp, heldAt_working h' ((hwork p errand pass batch).2 hp)]

theorem share_congr (howned : s'.Owned i ↔ s.Owned i) (hheld : s.Owned i → s'.heldAt i = s.heldAt i) :
    s'.share i = s.share i := by
  rw [share, share]
  by_cases hi : s.Owned i
  · rw [if_pos hi, if_pos (howned.2 hi), hheld hi]
  · rw [if_neg hi, if_neg (mt howned.1 hi)]

theorem share_le_shares (h : i < s.slots.length) : s.share i ≤ s.shares :=
  Finset.single_le_sum (fun _ _ => Multiset.zero_le _) (Finset.mem_range.2 h)

theorem shares_congr (hlength : s'.slots.length = s.slots.length)
    (hshare : ∀ j, s'.share j = s.share j) : s'.shares = s.shares := by
  rw [shares, shares, hlength]
  exact Finset.sum_congr rfl fun j _ => hshare j

/-- When one share changes, the sum of the shares changes by it. -/
theorem shares_of_ne (hlength : s'.slots.length = s.slots.length) (hi : i < s.slots.length)
    (hshare : ∀ j, j ≠ i → s'.share j = s.share j) :
    s'.shares + s.share i = s.shares + s'.share i := by
  rw [shares, shares, hlength]
  exact Lists.sum_add_of_ne (Finset.mem_range.2 hi) fun j _ => hshare j

/-! ### Passes under way after a change -/

theorem isWorking_setStage (hp : s.procs[p]? = some ⟨errand, old⟩) (hold : old.isWorking = false)
    (hnew : new.isWorking = false) :
    (s.setStage p new).IsWorking q errand' i pass batch ↔ s.IsWorking q errand' i pass batch := by
  refine ⟨fun h => h.of_setStage_other hnew, fun h => ?_⟩
  have hpq : p ≠ q := by
    rintro rfl
    cases hp.symm.trans h
    cases hold
  exact (procs_setStage_of_ne hpq new).trans h

theorem isWorking_spawn (hstage : new.isWorking = false) :
    (s.spawn errand new).1.IsWorking q errand' i pass batch ↔ s.IsWorking q errand' i pass batch := by
  refine ⟨fun h => h.of_spawn hstage, fun h => ?_⟩
  have hq : q ≠ s.procs.size := by
    rintro rfl
    cases Array.getElem?_size.symm.trans h
  exact (procs_spawn ..).trans ((if_neg hq).trans h)

theorem isWorking_sweep :
    s.sweep.1.IsWorking q errand i pass batch ↔ s.IsWorking q errand i pass batch :=
  sweep_induction (P := fun s' => s'.IsWorking q errand i pass batch ↔
    s.IsWorking q errand i pass batch) Iff.rfl fun _ _ _ hs' _ _ => (isWorking_spawn rfl).trans hs'

/-- A process that ends leaves the other passes under way. -/
theorem isWorking_endProc (h : Locked s) (hp : s.procs[p]? = some ⟨errand, old⟩)
    (hheld : old.held? = some i) (answer : Answer) :
    (s.endProc p i answer).IsWorking q errand' j pass batch ↔
      s.IsWorking q errand' j pass batch ∧ p ≠ q := by
  unfold IsWorking
  rcases procs_endProc h hp hheld answer q with
    ⟨rfl, heq⟩ | ⟨hpq, errand'', hq, heq⟩ | ⟨hpq, heq⟩
  · rw [heq]
    simp
  · rw [heq, hq]
    simp
  · rw [heq]
    simp [hpq]

/-- Nobody but the holder works on a slot. -/
theorem IsWorking.eq_of_held (h : Locked s) (hq : s.IsWorking q errand' j pass batch)
    (hp : s.procs[p]? = some ⟨errand, old⟩) (hheld : old.held? = some i) : i = j ↔ p = q := by
  constructor
  · rintro rfl
    exact h.holder_unique (stageAt_of_proc hp) (stageAt_of_proc hq) hheld rfl
  · rintro rfl
    cases hp.symm.trans hq
    exact (Option.some.inj hheld).symm

/-- While a process is admitted to a slot, no pass is under way there. -/
theorem idle_of_admitted (hl : Locked s)
    (hproc : s.procs[p]? = some ⟨errand, .admitted i⟩) : s.Idle i := by
  intro q errand' pass batch hq
  cases (hq.eq_of_held hl hproc rfl).1 rfl
  cases hproc.symm.trans hq

/-! ### Owned slots after a change -/

theorem owned_setStage (hp : s.procs[p]? = some ⟨errand, old⟩)
    (hslot : ¬ errand.IsPass → new.slot? = old.slot?) :
    (s.setStage p new).Owned j ↔ s.Owned j :=
  or_congr Iff.rfl (exists_congr fun _ => deletes_setStage hp hslot)

theorem listed_endProc (p : ProcId) (i j : SlotId) (answer : Answer) :
    (s.endProc p i answer).Listed j ↔ s.Listed j := by
  obtain ⟨slots, procs, heq⟩ := endProc_eq (s := s) p i answer
  rw [heq, Listed, Listed]

/-- A process that ends gives up no slot, unless it is the end of the deployment. -/
theorem owned_endProc (h : Locked s) (hp : s.procs[p]? = some ⟨errand, old⟩)
    (hheld : old.held? = some i) (answer : Answer) (hj : j ≠ i ∨ errand.IsPass) :
    (s.endProc p i answer).Owned j ↔ s.Owned j := by
  refine or_congr (listed_endProc ..) (exists_congr fun q => ?_)
  refine (deletes_endProc h hp hheld answer).trans (and_iff_left_of_imp ?_)
  rintro ⟨errand', stage, hq, hdelete, hstage⟩ rfl
  cases hp.symm.trans hq
  rcases hj with hj | hj
  · rw [Stage.slot?_of_held hheld] at hstage
    exact hj (Option.some.inj hstage).symm
  · exact hdelete hj

/-- A slot is given up when the end of its deployment is over. -/
theorem not_owned_endProc (h : Locked s) (hlisting : Listing s)
    (hp : s.procs[p]? = some ⟨errand, old⟩) (hheld : old.held? = some i) (answer : Answer)
    (hdelete : ¬ errand.IsPass) : ¬ (s.endProc p i answer).Owned i := by
  have hself : s.Deletes p i := ⟨errand, old, hp, hdelete, Stage.slot?_of_held hheld⟩
  rintro (hlist | ⟨q, hq⟩)
  · exact hlisting.unlisted hself ((listed_endProc ..).1 hlist)
  · obtain ⟨hq, hpq⟩ := (deletes_endProc h hp hheld answer).1 hq
    exact hpq (hlisting.unique hself hq)

/-! ### Shares of the other slots after a change -/

theorem share_setStage_of_ne (h : Locked s) (h' : Locked (s.setStage p new))
    (hp : s.procs[p]? = some ⟨errand, old⟩) (hheld : old.held? = some i)
    (hheld' : new.held? = some i) (hj : j ≠ i) : (s.setStage p new).share j = s.share j := by
  have hproc : (s.setStage p new).procs[p]? = some ⟨errand, new⟩ := procs_setStage_self hp new
  have hslot : new.slot? = old.slot? :=
    (Stage.slot?_of_held hheld').trans (Stage.slot?_of_held hheld).symm
  refine share_congr (owned_setStage hp fun _ => hslot) fun _ => heldAt_congr h h' (fun _ => rfl) ?_
  intro q errand' pass' batch'
  by_cases hpq : p = q
  · subst hpq
    -- before and after, the process holds the slot `i`
    exact iff_of_false (fun hq => hj ((hq.eq_of_held h' hproc hheld').2 rfl).symm)
      (fun hq => hj ((hq.eq_of_held h hp hheld).2 rfl).symm)
  · rw [IsWorking, procs_setStage_of_ne hpq, IsWorking]

theorem share_endProc_of_ne (h : Locked s) (hp : s.procs[p]? = some ⟨errand, old⟩)
    (hheld : old.held? = some i) (answer : Answer) (hj : j ≠ i) :
    (s.endProc p i answer).share j = s.share j := by
  have h' := h.endProc (stageAt_of_proc hp) hheld answer
  refine share_congr (owned_endProc h hp hheld answer (.inl hj)) fun _ => heldAt_congr h h' ?_ ?_
  · intro
    rw [recordAt_endProc]
  · intro q errand' pass' batch'
    refine (isWorking_endProc h hp hheld answer).trans (and_iff_left_of_imp ?_)
    exact fun hq hpq => hj ((hq.eq_of_held h hp hheld).2 hpq).symm

/-! ### Leftovers after a change -/

theorem leftovers_congr (hsize : s'.procs.size = s.procs.size)
    (h : ∀ q, s'.leftoverAt q = s.leftoverAt q) : s'.leftovers = s.leftovers := by
  rw [leftovers, leftovers, hsize]
  exact Finset.sum_congr rfl fun q _ => h q

theorem leftovers_spawn (errand : Errand) (stage : Stage) :
    (s.spawn errand stage).1.leftovers = s.leftovers + stage.leftover := by
  have hsize : (s.spawn errand stage).1.procs.size = s.procs.size + 1 := Array.size_push ..
  rw [leftovers, hsize, Finset.sum_range_succ, leftovers]
  refine congrArg₂ _ (Finset.sum_congr rfl fun q hq => ?_) ?_
  · rw [leftoverAt, stageAt_spawn, leftoverAt, Function.update_of_ne]
    exact Nat.ne_of_lt (Finset.mem_range.1 hq)
  · rw [leftoverAt, stageAt_spawn, Function.update_self]
    rfl

theorem leftovers_setStage (hp : s.procs[p]? = some ⟨errand, old⟩) (hold : old.leftover = 0)
    (hnew : new.leftover = 0) : (s.setStage p new).leftovers = s.leftovers := by
  refine leftovers_congr (Array.size_modify ..) fun q => ?_
  rw [leftoverAt, stageAt_setStage (stageAt_of_proc hp), leftoverAt]
  by_cases hqp : q = p
  · rw [hqp, Function.update_self, stageAt_of_proc hp, Option.elim_some, Option.elim_some, hold,
      hnew]
  · rw [Function.update_of_ne hqp]

theorem size_release (i : SlotId) : (s.release i).procs.size = s.procs.size := by
  unfold release
  split
  · rfl
  · rfl
  · exact Array.size_modify ..

theorem leftovers_endProc (h : Locked s) (hp : s.procs[p]? = some ⟨errand, old⟩)
    (hheld : old.held? = some i) (answer : Answer) :
    (s.endProc p i answer).leftovers = s.leftovers + (Stage.ended answer).leftover := by
  have hsize : (s.endProc p i answer).procs.size = s.procs.size :=
    (size_release i).trans (Array.size_modify ..)
  have hmem : p ∈ Finset.range s.procs.size :=
    Finset.mem_range.2 (Array.getElem?_eq_some_iff.1 hp).1
  -- who takes the lock over has left nothing, and nobody else is touched
  have hrest : ∀ q ∈ Finset.range s.procs.size, q ≠ p →
      (s.endProc p i answer).leftoverAt q = s.leftoverAt q := by
    intro q _ hqp
    rcases procs_endProc h hp hheld answer q with ⟨rfl, -⟩ | ⟨-, _, hq, heq⟩ | ⟨-, heq⟩
    · exact absurd rfl hqp
    · rw [leftoverAt, stageAt_of_proc heq, leftoverAt, stageAt_of_proc hq]
      rfl
    · rw [leftoverAt, stageAt, heq, leftoverAt, stageAt]
  have hself : (s.endProc p i answer).leftoverAt p = (Stage.ended answer).leftover := by
    rcases procs_endProc h hp hheld answer p with ⟨-, heq⟩ | ⟨hne, -⟩ | ⟨hne, -⟩
    · rw [leftoverAt, stageAt_of_proc heq]
      rfl
    · exact absurd rfl hne
    · exact absurd rfl hne
  have hnone : s.leftoverAt p = 0 := by
    rw [leftoverAt, stageAt_of_proc hp]
    exact Stage.leftover_of_held hheld
  have hsum := Lists.sum_add_of_ne hmem hrest
  rw [hself, hnone, add_zero] at hsum
  rw [leftovers, hsize, leftovers, hsum]

end State

/-! ### Changes in which nothing changes hands -/

/-- Nothing changes hands between the states: the engine, what the records have that no pass works
on, what is owned, what is under way and what is left over stay. -/
structure Still (s s' : State) : Prop where
  containers : s'.engine.containers = s.engine.containers
  nextHandle : s'.engine.nextHandle = s.engine.nextHandle
  settings : s'.settings = s.settings
  length : s'.slots.length = s.slots.length
  record : ∀ i, s.Idle i → (s'.recordAt i).elim 0 Deployment.holdings =
    (s.recordAt i).elim 0 Deployment.holdings
  owned : ∀ i, s'.Owned i ↔ s.Owned i
  working : ∀ p errand i pass batch,
    s'.IsWorking p errand i pass batch ↔ s.IsWorking p errand i pass batch
  leftovers : s'.leftovers = s.leftovers

namespace Still

variable {s s' s'' : State} {p : ProcId} {errand : Errand} {old new : Stage}

theorem refl (s : State) : Still s s :=
  ⟨rfl, rfl, rfl, rfl, fun _ _ => rfl, fun _ => Iff.rfl, fun _ _ _ _ _ => Iff.rfl, rfl⟩

theorem holdings (h : Still s s') : s'.engine.holdings = s.engine.holdings := by
  rw [Engine.holdings, Engine.running, h.containers, Engine.holdings, Engine.running]

theorem idle (h : Still s s') (i : SlotId) : s'.Idle i ↔ s.Idle i := by
  simp only [State.Idle, h.working]

theorem trans (h : Still s s') (h' : Still s' s'') : Still s s'' where
  containers := h'.containers.trans h.containers
  nextHandle := h'.nextHandle.trans h.nextHandle
  settings := h'.settings.trans h.settings
  length := h'.length.trans h.length
  record := fun i hi => (h'.record i ((h.idle i).2 hi)).trans (h.record i hi)
  owned := fun i => (h'.owned i).trans (h.owned i)
  working := fun p errand i pass batch =>
    (h'.working p errand i pass batch).trans (h.working p errand i pass batch)
  leftovers := h'.leftovers.trans h.leftovers

theorem spawn (hslot : errand.IsPass ∨ new.slot? = none) (hwork : new.isWorking = false)
    (hleft : new.leftover = 0) : Still s (s.spawn errand new).1 where
  containers := rfl
  nextHandle := rfl
  settings := rfl
  length := rfl
  record := fun _ _ => rfl
  owned := fun _ => or_congr Iff.rfl (exists_congr fun _ => State.deletes_spawn hslot)
  working := fun _ _ _ _ _ => State.isWorking_spawn hwork
  leftovers := by rw [State.leftovers_spawn, hleft, add_zero]

theorem setStage (hp : s.procs[p]? = some ⟨errand, old⟩) (hold : old.isWorking = false)
    (hnew : new.isWorking = false) (hslot : ¬ errand.IsPass → new.slot? = old.slot?)
    (hleft : old.leftover = 0) (hleft' : new.leftover = 0) : Still s (s.setStage p new) where
  containers := rfl
  nextHandle := rfl
  settings := rfl
  length := rfl
  record := fun _ _ => rfl
  owned := fun _ => State.owned_setStage hp hslot
  working := fun _ _ _ _ _ => State.isWorking_setStage hp hold hnew
  leftovers := State.leftovers_setStage hp hleft hleft'

theorem modifySlot {f : Slot → Slot} (hf : ∀ sl, (f sl).record = sl.record) (i : SlotId) :
    Still s (s.modifySlot i f) where
  containers := rfl
  nextHandle := rfl
  settings := rfl
  length := State.length_modifySlot ..
  record := fun j _ => by rw [State.recordAt_modifySlot hf]
  owned := fun _ => Iff.rfl
  working := fun _ _ _ _ _ => Iff.rfl
  leftovers := rfl

theorem mapRecord {i : SlotId} {f : Deployment → Deployment}
    (hf : s.Idle i → ∀ d, s.recordAt i = some d → (f d).holdings = d.holdings) :
    Still s (s.mapRecord i f) where
  containers := rfl
  nextHandle := rfl
  settings := rfl
  length := State.length_modifySlot ..
  record := fun j hj => by
    rw [State.recordAt_mapRecord]
    split
    · next hij =>
      subst hij
      cases hd : s.recordAt i with
      | none => rfl
      | some d => exact hf hj d hd
    · rfl
  owned := fun _ => Iff.rfl
  working := fun _ _ _ _ _ => Iff.rfl
  leftovers := rfl

/-- A process goes to another stage while the flag or the lock of its slot changes. -/
theorem lockStep (hp : s.procs[p]? = some ⟨errand, old⟩) {f : Slot → Slot} {i : SlotId}
    (hf : ∀ sl, (f sl).record = sl.record) (hold : old.isWorking = false)
    (hnew : new.isWorking = false) (hslot : new.slot? = old.slot?) (hleft : old.leftover = 0)
    (hleft' : new.leftover = 0) : Still s ((s.modifySlot i f).setStage p new) :=
  (modifySlot hf i).trans (setStage hp hold hnew (fun _ => hslot) hleft hleft')

theorem of_eq (hcontainers : s'.engine.containers = s.engine.containers)
    (hnext : s'.engine.nextHandle = s.engine.nextHandle) (hsettings : s'.settings = s.settings)
    (hindex : s'.index = s.index) (hslots : s'.slots = s.slots) (hprocs : s'.procs = s.procs) :
    Still s s' where
  containers := hcontainers
  nextHandle := hnext
  settings := hsettings
  length := congrArg _ hslots
  record := fun i _ => by rw [State.recordAt, hslots, State.recordAt]
  owned := fun i => by
    unfold State.Owned State.Listed State.Deletes
    rw [hindex, hprocs]
  working := fun _ _ _ _ _ => by rw [State.IsWorking, hprocs, State.IsWorking]
  leftovers := by
    unfold State.leftovers State.leftoverAt State.stageAt
    rw [hprocs]

/-- A process ends that had no plan under way and is not the end of a deployment. -/
theorem endProc (hl : Locked s) (hp : s.procs[p]? = some ⟨errand, old⟩) {i : SlotId}
    (hheld : old.held? = some i) (hold : old.isWorking = false) (hpass : errand.IsPass)
    {answer : Answer} (hleft : (Stage.ended answer).leftover = 0) :
    Still s (s.endProc p i answer) := by
  obtain ⟨slots, procs, heq⟩ := State.endProc_eq (s := s) p i answer
  refine ⟨by rw [heq], by rw [heq], by rw [heq], State.length_release _, fun j _ => by
    rw [State.recordAt_endProc], fun j => State.owned_endProc hl hp hheld answer (.inr hpass),
    fun q errand' j pass batch => ?_, ?_⟩
  · rw [State.isWorking_endProc hl hp hheld]
    refine and_iff_left_of_imp ?_
    rintro hq rfl
    cases hp.symm.trans hq
    cases hold
  · rw [State.leftovers_endProc hl hp hheld, hleft, add_zero]

/-- A deployment that is to be deleted is still owned. -/
theorem unlist {id : String} {i : SlotId} (hget : s.index.get? id = some i) :
    Still s (({ s with index := s.index.erase id } : State).spawn (.delete id) (.flag i)).1 where
  containers := rfl
  nextHandle := rfl
  settings := rfl
  length := rfl
  record := fun _ _ => rfl
  owned := fun j => by
    have hdeletes : ∀ {q}, (({ s with index := s.index.erase id } : State).spawn (.delete id)
        (.flag i)).1.Deletes q j ↔ q = s.procs.size ∧ i = j ∨ s.Deletes q j :=
      State.deletes_spawn_flag id
    constructor
    · rintro (⟨id', hid'⟩ | ⟨q, hq⟩)
      · have hold : s.index.get? id' = some j := by
          have herase : (s.index.erase id).get? id' = some j := hid'
          rw [SortedMap.get?_erase] at herase
          split at herase
          · cases herase
          · exact herase
        exact .inl ⟨id', hold⟩
      · rcases hdeletes.1 hq with ⟨-, rfl⟩ | hq
        · exact .inl ⟨id, hget⟩
        · exact .inr ⟨q, hq⟩
    · rintro (⟨id', hid'⟩ | ⟨q, hq⟩)
      · -- the slot that was listed under `id` is owned by the process that deletes it
        by_cases hid : id' = id
        · subst hid
          cases hget.symm.trans hid'
          exact .inr ⟨s.procs.size, hdeletes.2 (.inl ⟨rfl, rfl⟩)⟩
        · exact .inl ⟨id', (SortedMap.get?_erase ..).trans ((if_neg hid).trans hid')⟩
      · exact .inr ⟨q, hdeletes.2 (.inr hq)⟩
  working := fun _ _ _ _ _ => State.isWorking_spawn rfl
  leftovers := by
    rw [State.leftovers_spawn]
    exact add_zero _

theorem heldAt (h : Still s s') (hl : Locked s) (hl' : Locked s') (i : SlotId) :
    s'.heldAt i = s.heldAt i :=
  State.heldAt_congr hl hl' (h.record i) fun p errand => h.working p errand i

theorem accounted (h : Still s s') (hl : Locked s) (hl' : Locked s') :
    s'.accounted = s.accounted := by
  have hshares : s'.shares = s.shares :=
    State.shares_congr h.length fun i => State.share_congr (h.owned i) fun _ => h.heldAt hl hl' i
  rw [State.accounted, hshares, h.leftovers, State.accounted]

end Still

end Control

end FleetControl
