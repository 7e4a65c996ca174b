import FleetControl.Proofs.Control.Balance
import FleetControl.Proofs.Lists
import FleetControl.Proofs.Registry
import Mathlib.Algebra.BigOperators.Group.Finset.Piecewise

/-!
# No orphans and no phantoms

When no pass is under way and no deletion is pending (`State.isSettled`), the containers of the
engine are those of the published records and of what the deletions have left over, each once and on
the node that the instance names (`Control.no_orphans_no_phantoms`). It takes that no node leaves
the registry and that nobody else removes containers (`Control.runsCarefully`); calls may fail, time
out and be cancelled in any order.

`Control.Consistent` gathers the invariants of such runs: locks, listing, orderly records and
balance.
-/

namespace FleetControl

namespace Control

open Pass (WellPlaced WellPlanned)

/-! ### Careful runs -/

/-- Every step of the run is careful, as far as it goes. -/
def runsCarefully (s : State) : List Label → Bool
  | [] => true
  | l :: labels => isCareful s l && (step s l).all fun s' => runsCarefully s' labels

/-- A change of the world that removes no node keeps all that are known. -/
theorem knows_apply {s : State} {c : Change} (h : isCareful s (.change c)) {id : String}
    (hid : s.registry.Knows id) : (c.apply s).registry.Knows id := by
  cases c with
  | register node => exact hid.upsert node
  | deregister id => cases h
  | setHealthy q healthy => exact hid.setHealthy q healthy
  | setLabel q key value => exact hid.setLabel q key value
  | _ => exact hid

theorem keyed_apply {s : State} (c : Change) (h : s.registry.Keyed) : (c.apply s).registry.Keyed := by
  cases c with
  | register node => exact h.upsert node
  | deregister id => exact h.remove id
  | setHealthy q healthy => exact h.setHealthy q healthy
  | setLabel q key value => exact h.setLabel q key value
  | _ => exact h

/-- Only a change of the world changes the registry. -/
theorem registry_step {s s' : State} {l : Label} (h : step s l = some s') :
    s'.registry = s.registry ∨ ∃ c, l = .change c ∧ s' = c.apply s :=
  (sameWorld_step h).imp_left (·.registry)

/-! ### Invariants of careful runs -/

/-- A step that takes no node away keeps the records well placed. -/
theorem upkeep_orderly {s : State} (hkeyed : s.registry.Keyed) {r : Registry}
    (hr : ∀ id, s.registry.Knows id → r.Knows id) (l : Label) :
    Upkeep s l (fun _ => WellPlaced s.registry) (fun _ => WellPlaced r)
      (fun _ _ _ => WellPlanned s.registry) (fun _ _ _ => WellPlanned r) := by
  constructor
  case record_mono => exact fun hd => hd.mono hr
  case pass_mono => exact fun hp => hp.mono hr
  case founded =>
    intro request fresh _ _
    refine ⟨⟨List.nodup_nil, ?_⟩, ?_⟩
    · exact fun i hi => absurd hi List.not_mem_nil
    · exact fun i hi => absurd hi List.not_mem_nil
  case revised =>
    intro request fresh id i d _ _ _ hd
    exact ⟨hd.distinctIds.of_sublist rfl (List.Sublist.refl _) rfl, (hd.mono hr).known⟩
  case begun => exact fun hd => (hd.mono hr).begun
  case unplaced =>
    intro i d work e hd hstart
    obtain ⟨hcopy, hinst, hseq⟩ := Pass.start_failed hstart
    have hsub : work.instances.Sublist d.begun.instances := hinst ▸ Pass.dropLost_sublist ..
    refine WellPlaced.absorb ⟨hd.begun.distinctIds.of_sublist hcopy.id hsub hseq, fun j hj => ?_⟩ _
    exact hr _ (hd.begun.known j (hsub.subset hj))
  case opened =>
    intro p errand i sl pass selector _ _ _ _ hd hstart
    exact (hd.begun.start hkeyed hstart).mono hr
  case drained =>
    intro p id i sl _ _ _ hd
    exact (hd.startDrain _).mono hr
  case finished =>
    intro p errand i p₀ q outs f work report d _ hb hcourse _ hend _
    exact ((hb.course hcourse).finished hend).absorb d

/-- The invariants of careful runs. -/
structure Consistent (s : State) : Prop where
  locked : Locked s
  listing : Listing s
  keyed : s.registry.Keyed
  orderly : Orderly s
  balanced : Balanced s

theorem State.Fresh.consistent {s : State} (h : s.Fresh) (hempty : s.engine.containers = .empty)
    (hkeyed : s.registry.Keyed) : Consistent s where
  locked := Locked.of_fresh h.slots h.procs
  listing := Listing.of_fresh h.index h.slots h.procs
  keyed := hkeyed
  orderly := h.tracks _ _
  balanced := by
    have hnone : s.engine.holdings = 0 := by
      rw [Engine.holdings, Engine.running, hempty]
      rfl
    have hidle : ∀ p errand i pass batch, ¬ s.IsWorking p errand i pass batch := by
      intro p errand i pass batch hp
      rw [State.IsWorking, h.procs] at hp
      cases hp
    refine ⟨Engine.numbered_of_empty hempty, ?_, fun _ => ⟨hnone, hidle⟩,
      fun hp => absurd hp (hidle _ _ _ _ _)⟩
    rw [hnone, State.accounted, State.shares, State.leftovers, h.slots, h.procs]
    rfl

/-- **A careful step keeps all invariants.** -/
theorem Consistent.step {s s' : State} {l : Label} (h : Consistent s) (hcareful : isCareful s l)
    (hstep : step s l = some s') : Consistent s' := by
  -- nodes come and change, but none leaves
  have hknows : ∀ id, s.registry.Knows id → s'.registry.Knows id := by
    intro id hid
    rcases registry_step hstep with heq | ⟨c, rfl, rfl⟩
    · rwa [heq]
    · exact knows_apply hcareful hid
  have hkeyed : s'.registry.Keyed := by
    rcases registry_step hstep with heq | ⟨c, rfl, rfl⟩
    · rw [heq]
      exact h.keyed
    · exact keyed_apply c h.keyed
  exact ⟨h.locked.step (fun _ _ hget => h.listing.bound hget) hstep,
    h.listing.step h.locked (freshId_of_isCareful hcareful) hstep, hkeyed,
    h.orderly.step (upkeep_orderly h.keyed hknows l) hstep,
    h.balanced.step h.locked h.listing h.orderly hcareful hstep⟩

theorem Consistent.run {s s' : State} {labels : List Label} (h : Consistent s)
    (hcareful : runsCarefully s labels) (hrun : run s labels = some s') : Consistent s' := by
  induction labels generalizing s with
  | nil =>
    cases hrun
    exact h
  | cons l labels ih =>
    obtain ⟨s₁, hs₁, hrest⟩ := Option.bind_eq_some_iff.1
      (show (Control.step s l).bind _ = some s' from hrun)
    rw [runsCarefully, Bool.and_eq_true, hs₁] at hcareful
    exact ih (h.step hcareful.1 hs₁) hcareful.2 hrest

/-! ### Settled states -/

/-- Whether a process has no plan under way and, if it is the end of a deployment, is over. -/
def Proc.isSettled (proc : Proc) : Bool :=
  match proc.errand, proc.stage with
  | _, .working .. => false
  | .delete _, .ended _ => true
  | .delete _, _ => false
  | _, _ => true

namespace State

/-- No pass is under way, and no deletion is pending. -/
def isSettled (s : State) : Bool := s.procs.all Proc.isSettled

/-- What the deletions that are over have answered with. -/
def finals (s : State) : List Deployment :=
  s.procs.toList.filterMap fun proc =>
    match proc.stage with
    | .ended (.deleted final) => some final
    | _ => none

end State

namespace State

variable {s : State}

theorem isSettled_of_proc (h : s.isSettled) {p : ProcId} {proc : Proc}
    (hp : s.procs[p]? = some proc) : proc.isSettled :=
  (Array.all_eq_true'.1 h) proc (Array.mem_of_getElem? hp)

theorem idle_of_isSettled (h : s.isSettled) (i : SlotId) : s.Idle i := by
  intro p errand pass batch hp
  cases isSettled_of_proc h hp

theorem owned_iff_of_isSettled (h : s.isSettled) (i : SlotId) : s.Owned i ↔ s.Listed i := by
  refine or_iff_left ?_
  rintro ⟨p, errand, stage, hp, hdelete, hslot⟩
  have hsettled := isSettled_of_proc h hp
  cases errand with
  | delete id =>
    cases stage with
    | ended answer => cases hslot
    | _ => cases hsettled
  | _ => exact hdelete (by rintro id ⟨⟩)

theorem leftovers_eq : s.leftovers = (s.finals.map Deployment.holdings).sum := by
  have hleft : ∀ p, s.leftoverAt p =
      (s.procs.toList[p]?).elim 0 fun proc => proc.stage.leftover := by
    intro p
    rw [leftoverAt, stageAt, Array.getElem?_toList]
    cases s.procs[p]? <;> rfl
  have hfinal : ∀ proc : Proc, proc.stage.leftover =
      (match proc.stage with
        | .ended (.deleted final) => some final
        | _ => none : Option Deployment).elim 0 Deployment.holdings := by
    rintro ⟨errand, stage⟩
    cases stage with
    | ended answer => cases answer <;> rfl
    | _ => rfl
  rw [leftovers, finals, Lists.sum_map_filterMap, ← Array.length_toList]
  simp only [hleft, Lists.sum_range_getElem?, hfinal]

/-- When nothing is under way, the slots account for the published records. -/
theorem shares_eq (hl : Locked s) (hlisting : Listing s) (h : s.isSettled) :
    s.shares = (s.records.map Deployment.holdings).sum := by
  have hentry : ∀ e ∈ s.index.toList, s.index.get? e.1 = some e.2 :=
    fun e he => SortedMap.mem_toList.1 he
  have hnodup : s.index.values.Nodup := by
    refine List.Nodup.map_on (fun e he e' he' heq => ?_) (List.Nodup.of_map _ s.index.nodup_keys)
    have hget := hentry e he
    rw [heq] at hget
    exact Prod.ext (hlisting.injective hget (hentry e' he')) heq
  -- only listed slots account for anything, and each for its record
  have hshare : ∀ i, s.share i = if i ∈ s.index.values.toFinset then
      (s.recordAt i).elim 0 Deployment.holdings else 0 := by
    intro i
    have hiff : s.Owned i ↔ i ∈ s.index.values.toFinset := by
      rw [owned_iff_of_isSettled h, List.mem_toFinset, SortedMap.mem_values, Listed]
    rw [← heldAt_idle hl (idle_of_isSettled h i)]
    by_cases hi : s.Owned i
    · rw [if_pos (hiff.1 hi)]
      exact if_pos hi
    · rw [if_neg (mt hiff.2 hi)]
      exact if_neg hi
  have hsub : s.index.values.toFinset ⊆ Finset.range s.slots.length := by
    intro i hi
    obtain ⟨id, hid⟩ := SortedMap.mem_values.1 (List.mem_toFinset.1 hi)
    exact Finset.mem_range.2 (hlisting.bound hid)
  have hrecords : s.records = s.index.toList.filterMap fun e => s.recordAt e.2 := by
    rw [records, SortedMap.keys, List.filterMap_map]
    exact List.filterMap_congr fun e he => record?_of_get? (hentry e he)
  rw [shares, Finset.sum_congr rfl fun i _ => hshare i, Finset.sum_ite_mem,
    Finset.inter_eq_right.2 hsub, List.sum_toFinset _ hnodup, hrecords, Lists.sum_map_filterMap,
    SortedMap.values, List.map_map]
  rfl

end State

/-- The instances of records, with what they hold in the engine. -/
theorem sum_holdings (records : List Deployment) :
    (records.map Deployment.holdings).sum =
      ↑((records.flatMap (·.instances)).map Instance.holding) := by
  induction records with
  | nil => rfl
  | cons d rest ih =>
    rw [List.map_cons, List.sum_cons, ih, Deployment.holdings, Multiset.coe_add,
      List.flatMap_cons, List.map_append]

/-- **No orphans and no phantoms.** Once nothing is under way, the handles in the engine are those
of the instances that the published records have and of those that deletions have left over, each
once, and every container is on the node of its instance. -/
theorem no_orphans_no_phantoms {s₀ s : State} (h₀ : s₀.Fresh)
    (hempty : s₀.engine.containers = .empty) (hkeyed : s₀.registry.Keyed) {labels : List Label}
    (hcareful : runsCarefully s₀ labels) (hrun : run s₀ labels = some s) (hsettled : s.isSettled) :
    (((s.records ++ s.finals).flatMap (·.instances)).map (·.handle)).Nodup ∧
    (∀ handle, (s.engine.containers.get? handle).isSome ↔
      handle ∈ ((s.records ++ s.finals).flatMap (·.instances)).map (·.handle)) ∧
    ∀ d ∈ s.records ++ s.finals, ∀ i ∈ d.instances, ∃ c,
      s.engine.containers.get? i.handle = some c ∧ c.handle = i.handle ∧ c.nodeId = i.nodeId := by
  have hconsistent := (h₀.consistent hempty hkeyed).run hcareful hrun
  have hnumbered := hconsistent.balanced.numbered
  -- the balance, written as a permutation of lists
  have hperm : (((s.records ++ s.finals).flatMap (·.instances)).map Instance.holding).Perm
      (s.engine.running.map RunningContainer.holding) := by
    refine Multiset.coe_eq_coe.1 ?_
    rw [← sum_holdings, List.map_append, List.sum_append,
      ← State.shares_eq hconsistent.locked hconsistent.listing hsettled, ← State.leftovers_eq]
    exact hconsistent.balanced.accounted
  have hhandles : (((s.records ++ s.finals).flatMap (·.instances)).map (·.handle)).Perm
      (s.engine.running.map (·.handle)) := by
    have hfst := hperm.map Prod.fst
    rwa [List.map_map, List.map_map] at hfst
  refine ⟨hhandles.nodup_iff.2 hnumbered.nodup_handles, fun handle => ?_, fun d hd i hi => ?_⟩
  · rw [hhandles.mem_iff, hnumbered.handles, SortedMap.mem_keys, Option.isSome_iff_exists]
  · have hmem : i.holding ∈ s.engine.holdings :=
      hperm.subset (List.mem_map_of_mem (List.mem_flatMap.2 ⟨d, hd, hi⟩))
    obtain ⟨c, hget, hc⟩ := hnumbered.get?_of_mem hmem
    exact ⟨c, hget, congrArg Prod.fst hc, congrArg Prod.snd hc⟩

/-- Two deployments are placed on one node; when calls fail there, the first is deleted. -/
def failedRemoval : List Label :=
  [.submit { container := { image := "web" }, scale := 1 } "a"] ++ List.replicate 4 (.advance 0) ++
  [.startCall 0 0, .advance 0] ++
  [.submit { container := { image := "db" }, scale := 1 } "b"] ++ List.replicate 4 (.advance 1) ++
  [.startCall 1 0, .advance 1] ++
  [.change (.fail "n"), .delete "a"] ++ List.replicate 4 (.advance 2) ++
  [.startCall 2 0, .advance 2]

theorem no_orphans_no_phantoms_failedRemoval :
    oneNode.Fresh ∧ oneNode.engine.containers = .empty ∧ oneNode.registry.Keyed ∧
    runsCarefully oneNode failedRemoval ∧
    ∃ s, run oneNode failedRemoval = some s ∧ s.isSettled ∧
      s.records.flatMap (·.instances) ≠ [] ∧ s.finals.flatMap (·.instances) ≠ [] ∧
      ∀ handle, (s.engine.containers.get? handle).isSome ↔
        handle ∈ ((s.records ++ s.finals).flatMap (·.instances)).map (·.handle) := by
  have hkeyed : oneNode.registry.Keyed := Registry.keyed_ofNodes _
  have hcareful : runsCarefully oneNode failedRemoval := by decide +kernel
  have hend : (run oneNode failedRemoval).any fun s => s.isSettled &&
      !(s.records.flatMap (·.instances)).isEmpty && !(s.finals.flatMap (·.instances)).isEmpty := by
    decide +kernel
  obtain ⟨s, hrun, hs⟩ := (Option.any_eq_true ..).1 hend
  simp only [Bool.and_eq_true, Bool.not_eq_true', List.isEmpty_eq_false_iff] at hs
  obtain ⟨⟨hsettled, hrecords⟩, hfinals⟩ := hs
  obtain ⟨-, hhandles, -⟩ :=
    no_orphans_no_phantoms fresh_oneNode rfl hkeyed hcareful hrun hsettled
  exact ⟨fresh_oneNode, rfl, hkeyed, hcareful, s, hrun, hsettled, hrecords, hfinals, hhandles⟩

end Control

end FleetControl
