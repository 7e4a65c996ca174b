import FleetControl.Proofs.Control.Accounts
import FleetControl.Proofs.Pass.Availability

/-!
# Concurrent passes do not overshoot

The number of instances of a specification in a slot is bounded by the scales that were asked for
with it: `accepted` lists the requests that a run accepts, and `largestScale` is the largest scale
among those of one slot and one fingerprint. The bound holds of every record, and of every pass
under way with all that it still plans to create (`Control.never_overshoot`).

The bound is kept record by record and pass by pass, so it owes nothing to the order in which passes
take turns: a pass is bounded by the record it began with, and a record takes back only a bounded
pass.
-/

namespace FleetControl

/-- How many of the instances run a specification. -/
def Deployment.running (d : Deployment) (fingerprint : String) : Nat :=
  d.instances.countP (·.specFingerprint == fingerprint)

namespace Control

/-! ### Accepted requests -/

/-- The slot and the request, if a step accepts one. -/
def State.acceptance (s : State) : Label → Option (SlotId × Request)
  | .submit request fresh =>
    match s.accept request fresh with
    | .ok (s', id) => (s'.index.get? id).map fun i => (i, request)
    | .error _ => none
  | _ => none

/-- The requests that a run accepts, each with its slot. -/
def accepted (s : State) : List Label → List (SlotId × Request)
  | [] => []
  | l :: labels => (s.acceptance l).toList ++ (step s l).elim [] fun s' => accepted s' labels

theorem accepted_eq_gather (s : State) (labels : List Label) :
    accepted s labels = gather State.acceptance s labels := by
  induction labels generalizing s with
  | nil => rfl
  | cons l labels ih => simp only [accepted, gather, ih]

theorem accepted_append {s₀ s : State} {labels : List Label} (h : run s₀ labels = some s)
    (l : Label) : accepted s₀ (labels ++ [l]) = accepted s₀ labels ++ (s.acceptance l).toList := by
  simp only [accepted_eq_gather, gather_concat _ h]

/-- The scales of the requests for a slot and a specification. -/
def scales (requests : List (SlotId × Request)) (i : SlotId) (fingerprint : String) : List Nat :=
  (requests.filter fun r => r.1 == i && r.2.container.fingerprint == fingerprint).map
    (·.2.scale.toNat)

/-- The largest scale of the requests for a slot and a specification; zero if there are none. -/
def largestScale (requests : List (SlotId × Request)) (i : SlotId) (fingerprint : String) : Nat :=
  (scales requests i fingerprint).max?.getD 0

theorem scale_le_largestScale {requests : List (SlotId × Request)} {i : SlotId} {request : Request}
    (h : (i, request) ∈ requests) :
    request.scale.toNat ≤ largestScale requests i request.container.fingerprint :=
  List.le_max?_getD_of_mem
    (List.mem_map.2 ⟨(i, request), List.mem_filter.2 ⟨h, by simp⟩, rfl⟩)

theorem largestScale_mono {requests more : List (SlotId × Request)} (h : requests ⊆ more)
    (i : SlotId) (fingerprint : String) :
    largestScale requests i fingerprint ≤ largestScale more i fingerprint := by
  have hsub : scales requests i fingerprint ⊆ scales more i fingerprint := fun n hn => by
    obtain ⟨r, hr, rfl⟩ := List.mem_map.1 hn
    obtain ⟨hmem, hcond⟩ := List.mem_filter.1 hr
    exact List.mem_map.2 ⟨r, List.mem_filter.2 ⟨h hmem, hcond⟩, rfl⟩
  rw [largestScale]
  cases hmax : (scales requests i fingerprint).max? with
  | none => exact Nat.zero_le _
  | some n => exact List.le_max?_getD_of_mem (hsub (List.max?_mem hmax))

/-! ### What records and passes keep -/

/-- What the record wants was asked for by one of the requests. -/
structure Wanted (requests : List (SlotId × Request)) (i : SlotId) (d : Deployment) : Prop where
  fingerprint : d.specFingerprint = d.request.container.fingerprint
  request : ∃ request, (i, request) ∈ requests ∧ request.container = d.request.container ∧
    request.scale = d.request.scale

/-- The record wants what was asked for, and has no more of it than was ever asked for. -/
structure Bounded (requests : List (SlotId × Request)) (i : SlotId) (d : Deployment) : Prop where
  wanted : Wanted requests i d
  running : ∀ fingerprint, d.running fingerprint ≤ largestScale requests i fingerprint

/-- The pass wants what was asked for, and comes to no more of it than was ever asked for. -/
structure BoundedPass (requests : List (SlotId × Request)) (i : SlotId) (p : Pass) : Prop where
  wanted : Wanted requests i p.work
  supply : ∀ fingerprint, p.supply fingerprint ≤ largestScale requests i fingerprint

section

variable {requests more : List (SlotId × Request)} {i : SlotId} {d work : Deployment}

theorem Wanted.mono (h : Wanted requests i d) (hsub : requests ⊆ more) : Wanted more i d :=
  ⟨h.fingerprint, h.request.imp fun _ hr => ⟨hsub hr.1, hr.2⟩⟩

theorem Wanted.of_copy (h : Wanted requests i d) (hcopy : work.CopyOf d) :
    Wanted requests i work := by
  refine ⟨?_, ?_⟩
  · rw [hcopy.specFingerprint, hcopy.request, h.fingerprint]
  · rw [hcopy.request]
    exact h.request

theorem Wanted.absorb (h : Wanted requests i d) (hwork : Wanted requests i work) :
    Wanted requests i (d.absorb work) := by
  unfold Deployment.absorb
  split
  · exact hwork
  · exact ⟨h.fingerprint, h.request⟩

theorem Wanted.scale_le (h : Wanted requests i d) :
    d.scale ≤ largestScale requests i d.specFingerprint := by
  obtain ⟨request, hmem, hcontainer, hscale⟩ := h.request
  rw [h.fingerprint, Deployment.scale, ← hcontainer, ← hscale]
  exact scale_le_largestScale hmem

theorem Bounded.mono (h : Bounded requests i d) (hsub : requests ⊆ more) : Bounded more i d :=
  ⟨h.wanted.mono hsub, fun _ => Nat.le_trans (h.running _) (largestScale_mono hsub ..)⟩

theorem BoundedPass.mono {p : Pass} (h : BoundedPass requests i p) (hsub : requests ⊆ more) :
    BoundedPass more i p :=
  ⟨h.wanted.mono hsub, fun _ => Nat.le_trans (h.supply _) (largestScale_mono hsub ..)⟩

theorem Bounded.begun (h : Bounded requests i d) : Bounded requests i d.begun := by
  obtain ⟨state, he⟩ := d.begun_eq
  rw [he]
  exact ⟨⟨h.wanted.fingerprint, h.wanted.request⟩, h.running⟩

theorem running_le_of_sublist {d' : Deployment} (h : d'.instances.Sublist d.instances)
    (fingerprint : String) : d'.running fingerprint ≤ d.running fingerprint :=
  h.countP_le

theorem running_le_supply (p : Pass) (fingerprint : String) :
    p.work.running fingerprint ≤ p.supply fingerprint :=
  Nat.le_add_right ..

/-- A record takes back a bounded pass. -/
theorem Bounded.absorb (h : Bounded requests i d) (hwork : Bounded requests i work) :
    Bounded requests i (d.absorb work) := by
  refine ⟨h.wanted.absorb hwork.wanted, fun fingerprint => ?_⟩
  rw [Deployment.running, Deployment.absorb_instances]
  exact hwork.running fingerprint

/-- A pass begins bounded by the record: what it plans to create is what the scale leaves. -/
theorem Bounded.start {f : Fleet} {p : Pass} {selector : Placement.Selector}
    (h : Bounded requests i d) (hstart : Pass.start f d = .planned p selector) :
    BoundedPass requests i p := by
  refine ⟨h.wanted.of_copy (Pass.start_planned hstart).1, fun fingerprint => ?_⟩
  have hsupply := Pass.supply_of_start hstart fingerprint
  have hkept : (Pass.dropLost f.registry d).running fingerprint ≤ _ :=
    Nat.le_trans (running_le_of_sublist (Pass.dropLost_sublist ..) _) (h.running fingerprint)
  rw [Deployment.running] at hkept
  split at hsupply
  · next hfp =>
    subst hfp
    have hmatched : (Pass.dropLost f.registry d).matched.length =
        (Pass.dropLost f.registry d).instances.countP (·.specFingerprint == d.specFingerprint) :=
      Pass.length_matched_eq _
    have hscale := h.wanted.scale_le
    omega
  · omega

theorem Bounded.startDrain (h : Bounded requests i d) (now : Nat) :
    BoundedPass requests i (Pass.startDrain now d) := by
  refine ⟨⟨h.wanted.fingerprint, h.wanted.request⟩, fun fingerprint => ?_⟩
  have hcreates : (Pass.startDrain now d).creates = 0 := Pass.countP_isCreate_map_remove ..
  rw [Pass.supply, hcreates, ite_self]
  exact h.running fingerprint

theorem BoundedPass.course {p₀ p : Pass} {outs : List Outcome} (h : BoundedPass requests i p₀)
    (hcourse : Pass.Course p₀ p outs) : BoundedPass requests i p :=
  ⟨h.wanted.of_copy hcourse.copyOf, fun _ => Nat.le_trans (hcourse.supply_le _) (h.supply _)⟩

theorem BoundedPass.finished {f : Fleet} {p : Pass} {report : Report}
    (h : BoundedPass requests i p) (hend : p.proceed f = .finished work report) :
    Bounded requests i work := by
  obtain ⟨hcopy, hinst, -⟩ := Pass.finished_eq hend
  refine ⟨h.wanted.of_copy hcopy, fun fingerprint => ?_⟩
  rw [Deployment.running, hinst]
  exact Nat.le_trans (running_le_supply ..) (h.supply fingerprint)

end

/-- The process began its pass at an earlier point of the run, on the record there was then. -/
def BegunAt (s₀ : State) (labels : List Label) (p : ProcId) (i : SlotId) (p₀ : Pass)
    (s : State) (d : Deployment) : Prop :=
  ∃ before selector, before ++ [.advance p] <+: labels ∧ run s₀ before = some s ∧
    s.recordAt i = some d ∧ Pass.start s.fleet d.begun = .planned p₀ selector

theorem acceptance_of_founded {s : State} {request : Request} {fresh : String}
    (h : s.accept request fresh =
      .ok (s.found (s.newRecord request fresh), (s.newRecord request fresh).id)) :
    s.acceptance (.submit request fresh) = some (s.slots.length, request) := by
  simp only [State.acceptance, h, State.found, SortedMap.get?_insert_self, Option.map_some]

theorem acceptance_of_revised {s : State} {request : Request} {fresh id : String} {i : SlotId}
    (h : s.accept request fresh = .ok (s.mapRecord i (·.update request), id))
    (hget : s.index.get? id = some i) :
    s.acceptance (.submit request fresh) = some (i, request) := by
  have hindex : (s.mapRecord i (·.update request)).index.get? id = some i := hget
  simp only [State.acceptance, h, hindex, Option.map_some]

/-- A step keeps records and passes bounded by the requests accepted so far. -/
theorem upkeep_bounded {s₀ s : State} {labels : List Label} (h : run s₀ labels = some s)
    (l : Label) :
    Upkeep s l (Bounded (accepted s₀ labels)) (Bounded (accepted s₀ (labels ++ [l])))
      (fun p errand i p₀ => BoundedPass (accepted s₀ labels) i p₀ ∧
        (errand.IsPass → ∃ s d, BegunAt s₀ labels p i p₀ s d))
      (fun p errand i p₀ => BoundedPass (accepted s₀ (labels ++ [l])) i p₀ ∧
        (errand.IsPass → ∃ s d, BegunAt s₀ (labels ++ [l]) p i p₀ s d)) := by
  have happend := accepted_append h l
  have hsub : accepted s₀ labels ⊆ accepted s₀ (labels ++ [l]) :=
    happend ▸ List.subset_append_left ..
  -- the request that the step accepts counts from now on
  have hlast : ∀ {i request}, s.acceptance l = some (i, request) →
      (i, request) ∈ accepted s₀ (labels ++ [l]) := fun hl => by
    rw [happend, hl]
    simp
  constructor
  case record_mono => exact fun hd => hd.mono hsub
  case pass_mono =>
    rintro p errand i p₀ ⟨hp, hbegun⟩
    refine ⟨hp.mono hsub, fun hpass => ?_⟩
    obtain ⟨s₁, d, before, selector, hprefix, hrest⟩ := hbegun hpass
    exact ⟨s₁, d, before, selector, hprefix.trans (List.prefix_append ..), hrest⟩
  case founded =>
    rintro request fresh rfl haccept
    exact ⟨⟨rfl, request, hlast (acceptance_of_founded haccept), rfl, rfl⟩,
      fun _ => Nat.zero_le _⟩
  case revised =>
    rintro request fresh id i d rfl haccept hget hd
    exact ⟨⟨rfl, request, hlast (acceptance_of_revised haccept hget), rfl, rfl⟩,
      (hd.mono hsub).running⟩
  case begun => exact fun hd => (hd.mono hsub).begun
  case unplaced =>
    intro i d work e hd hstart
    have hbegun := (hd.mono hsub).begun
    obtain ⟨hcopy, hinst, -⟩ := Pass.start_failed hstart
    -- a failed election leaves fewer instances at most
    refine hbegun.absorb ⟨hbegun.wanted.of_copy hcopy, fun fingerprint => ?_⟩
    refine Nat.le_trans (running_le_of_sublist ?_ _) (hbegun.running fingerprint)
    exact hinst ▸ Pass.dropLost_sublist ..
  case opened =>
    rintro p errand i sl pass selector rfl hproc hpass hslot hd hstart
    exact ⟨(hd.mono hsub).begun.start hstart, fun _ => ⟨s, sl.record, labels, selector,
      List.prefix_refl _, h, State.recordAt_of_slot hslot, hstart⟩⟩
  case drained =>
    rintro p id i sl rfl hproc hslot hd
    exact ⟨(hd.mono hsub).startDrain _, fun hpass => absurd rfl (hpass id)⟩
  case finished =>
    rintro p errand i p₀ q outs f work report d hpass ⟨hb, -⟩ hcourse hplan hend hd
    exact hd.absorb ((hb.course hcourse).finished hend)

/-- **Concurrent passes do not overshoot.** Whatever the order of calls, passes and failures, the
instances of a specification in a record are no more than the largest scale that was accepted with
it for the slot. Nor are those of a pass under way with all it still has to create. A pass creates
no more than the scale it began with leaves missing once lost instances are dropped. -/
theorem never_overshoot {s₀ s : State} (h₀ : s₀.Fresh) {labels : List Label}
    (h : run s₀ labels = some s) :
    (∀ i d fingerprint, s.recordAt i = some d →
      d.running fingerprint ≤ largestScale (accepted s₀ labels) i fingerprint) ∧
    (∀ p errand i pass batch, s.IsWorking p errand i pass batch →
      ∀ fingerprint, pass.work.running fingerprint ≤ pass.supply fingerprint ∧
        pass.supply fingerprint ≤ largestScale (accepted s₀ labels) i fingerprint) ∧
    ∀ p errand i pass batch, s.IsWorking p errand i pass batch → errand.IsPass →
      ∃ s₁ d p₀ outs, BegunAt s₀ labels p i p₀ s₁ d ∧ Pass.Course p₀ pass outs ∧
        pass.work.scale = d.scale ∧ batch.calls.map (·.dispatch) = pass.plan ∧
        outs.countP (·.dispatch.isCreate) + batch.calls.countP (·.dispatch.isCreate) ≤
          d.scale - (Pass.dropLost s₁.registry d).matched.length := by
  have htracks := Tracks.run (h₀.tracks _ _) (fun labels s l hrun => upkeep_bounded hrun l) h
  refine ⟨fun i d fingerprint hd => (htracks.record hd).running fingerprint, ?_, ?_⟩
  · intro p errand i pass batch hp fingerprint
    obtain ⟨-, p₀, outs, ⟨hb, -⟩, hcourse⟩ := htracks.pass hp
    exact ⟨running_le_supply .., (hb.course hcourse).supply fingerprint⟩
  · intro p errand i pass batch hp hpass
    obtain ⟨hplan, p₀, outs, ⟨-, hbegun⟩, hcourse⟩ := htracks.pass hp
    obtain ⟨s₁, d, before, selector, hprefix, hrun, hd, hstart⟩ := hbegun hpass
    obtain ⟨state, he⟩ := d.begun_eq
    have hscale := (hcourse.copyOf.trans (Pass.start_planned hstart).1).scale
    have hcreated := hcourse.created_le hstart
    rw [Pass.creates, ← hplan, Batch.dispatches, List.countP_map] at hcreated
    rw [he] at hscale hcreated
    exact ⟨s₁, d, p₀, outs, ⟨before, selector, hprefix, hrun, hd, hstart⟩, hcourse, hscale, hplan,
      hcreated⟩

/-- A deployment has one of two instances, and a second pass has begun that creates the other. The
request is replaced meanwhile, and the pass of the new one waits for the lock. -/
def replacedMidPass : List Label :=
  [.submit { deploymentId := some "a", container := { image := "web" }, scale := 2 } "x"] ++
  List.replicate 4 (.advance 0) ++ [.startCall 0 0, .advance 0, .trigger "a"] ++
  List.replicate 4 (.advance 1) ++
  [.submit { deploymentId := some "a", container := { image := "db" }, scale := 3 } "x",
    .advance 2, .advance 2]

theorem never_overshoot_replacedMidPass : oneNode.Fresh ∧ ∃ s d pass batch,
    run oneNode replacedMidPass = some s ∧ s.recordAt 0 = some d ∧ d.scale = 3 ∧
    s.procs[2]? = some ⟨.submit "a", .queued 0⟩ ∧ s.IsWorking 1 (.trigger "a") 0 pass batch ∧
    pass.supply pass.work.specFingerprint = 2 ∧
    largestScale (accepted oneNode replacedMidPass) 0 pass.work.specFingerprint = 2 ∧
    (∀ fingerprint, d.running fingerprint ≤
      largestScale (accepted oneNode replacedMidPass) 0 fingerprint) ∧
    (∀ fingerprint, pass.work.running fingerprint ≤ pass.supply fingerprint ∧
      pass.supply fingerprint ≤ largestScale (accepted oneNode replacedMidPass) 0 fingerprint) ∧
    ∃ s₁ d₁ p₀ outs, BegunAt oneNode replacedMidPass 1 0 p₀ s₁ d₁ ∧ Pass.Course p₀ pass outs ∧
      outs.countP (·.dispatch.isCreate) + batch.calls.countP (·.dispatch.isCreate) ≤
        d₁.scale - (Pass.dropLost s₁.registry d₁).matched.length := by
  have hend : (run oneNode replacedMidPass).any fun s =>
      (s.recordAt 0).any (fun d => d.scale == 3) &&
      (s.procs[2]?).any (fun proc => proc.errand == .submit "a" && proc.stage.awaited? == some 0) &&
      (s.procs[1]?).any fun proc => proc.errand == .trigger "a" && proc.stage.held? == some 0 &&
        proc.stage.plan?.any fun plan => plan.1.supply plan.1.work.specFingerprint == 2 &&
          largestScale (accepted oneNode replacedMidPass) 0 plan.1.work.specFingerprint == 2 := by
    decide +kernel
  simp only [Option.any_eq_true, Bool.and_eq_true, beq_iff_eq] at hend
  obtain ⟨s, hrun, ⟨⟨d, hd, hscale⟩, ⟨_, _⟩, hwaits, rfl, hawaited⟩, ⟨_, _⟩, hproc, ⟨rfl, hheld⟩,
    ⟨pass, batch⟩, hplan, hsupply, hlargest⟩ := hend
  obtain rfl := Stage.eq_queued hawaited
  obtain rfl := Stage.eq_working hheld hplan
  obtain ⟨hrecords, hpasses, hcreates⟩ := never_overshoot fresh_oneNode hrun
  obtain ⟨s₁, d₁, p₀, outs, hbegun, hcourse, -, -, hle⟩ :=
    hcreates 1 _ 0 pass batch hproc (by rintro id ⟨⟩)
  exact ⟨fresh_oneNode, s, d, pass, batch, hrun, hd, hscale, hwaits, hproc, hsupply, hlargest,
    fun fingerprint => hrecords 0 d fingerprint hd, hpasses 1 _ 0 pass batch hproc,
    s₁, d₁, p₀, outs, hbegun, hcourse, hle⟩

end Control

end FleetControl
