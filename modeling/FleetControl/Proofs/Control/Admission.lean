import FleetControl.Api.Route
import FleetControl.Proofs.Control.Answers

/-!
# Bad requests are turned away up front

A request whose region cannot be used is turned away where it is submitted, and nothing changes
(`Control.Admission`). What is accepted can be placed from then on, so no pass fails
(`Control.fails_up_front`): an operator who asks for a pass meets with a report, or with no
deployment under the id.

A pass whose plan has more permits than can be counted makes no call and comes to no answer of its
own, so this goes for limits that can be counted only (`Control.passes_abort`).

The runs are those of a control plane that is fresh and has a sound tree of regions, as every
configuration sets it up (`Control.sound_ofConfig`).
-/

namespace FleetControl

open Region (Path)
open Placement (Placeable)

namespace Control

/-! ### Looking a deployment up -/

section

variable {s₀ s s' : State} {labels : List Label} {l : Label} {q : ProcId} {id : String}
  {met met' : Option SlotId}

/-- The process is past looking its deployment up. -/
def IsPast (s : State) (q : ProcId) : Prop :=
  q < s.procs.size ∧ ∀ errand id, s.procs[q]? ≠ some ⟨errand, .lookup id⟩

theorem IsPast.step (hl : Locked s) (hstep : Control.step s l = some s') (hq : q < s.procs.size)
    (h : IsPast s q ∨ l = .advance q) : IsPast s' q := by
  refine ⟨exists_proc_step hl hstep hq, fun errand id hlookup => ?_⟩
  cases arrives_of_step hl hstep hlookup with
  | stayed hother hold =>
    rcases h with hpast | rfl
    · exact hpast.2 _ _ hold
    · exact hother rfl
  | accepted hsize _ => exact absurd hsize (Nat.ne_of_gt hq)
  | triggered _ hsize => exact absurd hsize (Nat.ne_of_gt hq)

theorem lookedUp_concat_iff (hrun : run s₀ labels = some s) :
    LookedUp s₀ (labels ++ [l]) q id met ↔ LookedUp s₀ labels q id met ∨
      l = .advance q ∧ (∃ errand, s.procs[q]? = some ⟨errand, .lookup id⟩) ∧
        s.index.get? id = met := by
  constructor
  · rintro ⟨before, s₁, errand, hbefore, hrun₁, hproc, hget⟩
    rcases List.prefix_concat_iff.1 hbefore with heq | hbefore
    · obtain ⟨rfl, hl⟩ := List.append_inj' heq rfl
      cases hrun.symm.trans hrun₁
      exact .inr ⟨(List.cons.inj hl).1.symm, ⟨errand, hproc⟩, hget⟩
    · exact .inl ⟨before, s₁, errand, hbefore, hrun₁, hproc, hget⟩
  · rintro (h | ⟨rfl, ⟨errand, hproc⟩, hget⟩)
    · exact h.append l
    · exact lookedUp_last hrun hproc hget

/-- A process looks its deployment up once. -/
theorem LookedUp.unique (h₀ : s₀.Fresh) (hrun : run s₀ labels = some s)
    (h : LookedUp s₀ labels q id met) (h' : LookedUp s₀ labels q id met') : met = met' := by
  suffices hall : ∀ met, LookedUp s₀ labels q id met →
      IsPast s q ∧ ∀ met', LookedUp s₀ labels q id met' → met = met' from (hall met h).2 met' h'
  refine run_induction (P := fun labels s => ∀ met, LookedUp s₀ labels q id met →
    IsPast s q ∧ ∀ met', LookedUp s₀ labels q id met' → met = met') ?_ ?_ hrun
  · rintro met ⟨before, s₁, errand, hbefore, -⟩
    simp at hbefore
  · intro labels s l s' hrun ih hstep met hmet
    have hl := (h₀.intact.run hrun).locked
    rcases (lookedUp_concat_iff hrun).1 hmet with hold | ⟨rfl, ⟨errand, hproc⟩, hget⟩
    · obtain ⟨hpast, hunique⟩ := ih met hold
      refine ⟨.step hl hstep hpast.1 (.inl hpast), fun met' hmet' => ?_⟩
      rcases (lookedUp_concat_iff hrun).1 hmet' with hold' | ⟨-, ⟨errand, hproc⟩, -⟩
      · exact hunique met' hold'
      · exact absurd hproc (hpast.2 _ _)
    · have hlt := lt_size_of_actor hstep rfl
      refine ⟨.step hl hstep hlt (.inr rfl), fun met' hmet' => ?_⟩
      rcases (lookedUp_concat_iff hrun).1 hmet' with hold' | ⟨-, -, hget'⟩
      · exact absurd hproc ((ih met' hold').1.2 _ _)
      · exact hget.symm.trans hget'

end

/-! ### Submissions -/

/-- What comes of a request that is submitted. -/
structure Admission (s s' : State) (request : Request) : Prop where
  /-- It is turned away for its path exactly if that cannot be read. -/
  invalid : (∃ text fault,
      s'.answer? s.procs.size = some (.failed (.region (.invalidPath text fault)))) ↔
    ∀ p, Path.parse request.region ≠ .ok p
  /-- It is turned away for its region exactly if it insists on one that does not exist. -/
  missing : (∃ text, s'.answer? s.procs.size = some (.failed (.region (.notFound text)))) ↔
    ∃ p, Path.parse request.region = .ok p ∧ request.strictRegion = true ∧ s.tree.resolve p = none
  /-- Then nothing has changed, but for the call that is over. -/
  unchanged : ∀ e, s'.answer? s.procs.size = some (.failed (.region e)) →
    ∃ errand, s' = { s with procs := s.procs.push ⟨errand, .ended (.failed (.region e))⟩ }

section

variable {s₀ s s' : State} {labels : List Label} {q : ProcId} {request : Request}
  {fresh id : String} {answer : Answer} {errand : Errand} {stage : Stage}

theorem State.answer?_spawn_size (s : State) (errand : Errand) (answer : Answer) :
    (s.spawn errand (.ended answer)).1.answer? s.procs.size = some answer := by
  simp [State.answer?, State.procs_spawn]

/-- A submission is answered at once exactly if the request cannot be placed. -/
theorem answer?_submit {e : Region.Error} (hstep : step s (.submit request fresh) = some s') :
    s'.answer? s.procs.size = some (.failed (.region e)) ↔ s.validate request = .error e := by
  have haccept : s.accept request fresh = .error e ↔ s.validate request = .error e :=
    State.accept_eq_error_iff
  rw [← haccept]
  have hnone : ∀ (s₁ : State) {id : String} {errand : Errand}, s₁.procs = s.procs →
      (s₁.spawn errand (.lookup id)).1.answer? s.procs.size = none := by
    intro s₁ id errand hprocs
    simp [State.answer?, State.procs_spawn, hprocs]
  cases moves_of_step hstep with
  | refused e' haccept => simp [State.answer?_spawn_size, haccept]
  | revised haccept _ => simp [haccept, hnone (s.mapRecord _ _) rfl]
  | founded haccept _ => simp [haccept, hnone (s.found _) rfl]
  | called _ hcall => cases actor?_of_called hcall

theorem admission_of_step (hstep : step s (.submit request fresh) = some s') :
    Admission s s' request where
  invalid := by
    simp only [answer?_submit hstep]
    exact State.validate_eq_invalidPath_iff
  missing := by
    simp only [answer?_submit hstep]
    exact State.validate_eq_notFound_iff
  unchanged e he := by
    have haccept : s.accept request fresh = .error e :=
      State.accept_eq_error_iff.2 ((answer?_submit hstep).1 he)
    refine ⟨.submit fresh, ?_⟩
    simp only [step, State.submit, haccept, Option.some.injEq] at hstep
    exact hstep.symm

/-! ### Whole runs -/

/-- What is promised of a state that a run leads to. -/
structure Unfailing (s₀ : State) (labels : List Label) (s : State) : Prop where
  /-- Requests that cannot be placed are turned away, and no others. -/
  admission : ∀ request fresh s', step s (.submit request fresh) = some s' → Admission s s' request
  /-- The requests of all deployments can be placed. -/
  placeable : ∀ i d, s.recordAt i = some d → Placeable s.tree d.request
  /-- No pass of a deployment has failed. -/
  answers : ∀ q errand answer, s.procs[q]? = some ⟨errand, .ended answer⟩ →
    Accounted s₀ labels q errand answer
  /-- Who asked for a pass is answered with 404 if no deployment is listed, and otherwise with 200.
  -/
  endpoint : ∀ q id answer, s.procs[q]? = some ⟨.trigger id, .ended answer⟩ →
    ((Api.reported answer).status = 404 ↔ LookedUp s₀ labels q id none) ∧
      ((Api.reported answer).status = 200 ↔ ∃ i, LookedUp s₀ labels q id (some i)) ∧
      ((Api.reported answer).status = 404 ∨ (Api.reported answer).status = 200)
  /-- The calls do not go on for ever. -/
  ends : ¬ Diverges s
  /-- They go on until all are answered. -/
  goesOn : (∃ s', Goes s s') ∨ ∀ q < s.procs.size, (s.answer? q).isSome

theorem Accounted.endpoint (h₀ : s₀.Fresh) (hrun : run s₀ labels = some s)
    (h : Accounted s₀ labels q (.trigger id) answer) :
    ((Api.reported answer).status = 404 ↔ LookedUp s₀ labels q id none) ∧
      ((Api.reported answer).status = 200 ↔ ∃ i, LookedUp s₀ labels q id (some i)) ∧
      ((Api.reported answer).status = 404 ∨ (Api.reported answer).status = 200) := by
  cases h with
  | @reported _ i report hfound =>
    have hstatus : (Api.reported (.reported report)).status = 200 := rfl
    have hnot : ¬ LookedUp s₀ labels q id none := by
      intro hmissed
      cases hfound.unique h₀ hrun hmissed
    simp [hstatus, hnot, show ∃ i, LookedUp s₀ labels q id (some i) from ⟨i, hfound⟩]
  | missed hmissed =>
    have hstatus : (Api.reported (.failed (.deploymentNotFound id))).status = 404 := rfl
    have hnot : ¬ ∃ i, LookedUp s₀ labels q id (some i) := by
      rintro ⟨i, hfound⟩
      cases hfound.unique h₀ hrun hmissed
    simp [hstatus, hmissed, hnot]

end

/-- **Bad requests are turned away up front, and passes never fail**, while regions are added and
change their settings at any time. -/
theorem fails_up_front {s₀ s : State} {labels : List Label} (h₀ : s₀.Fresh) (ht : s₀.tree.Sound)
    (hcap : s₀.settings.maxConcurrentDispatches.toNat ≤ Batch.maxPermits)
    (hrun : run s₀ labels = some s) : Unfailing s₀ labels s := by
  have hs₀ := h₀.reliable ht hcap
  have hs := hs₀.run hrun
  have hanswers : ∀ q errand answer, s.procs[q]? = some ⟨errand, .ended answer⟩ →
      Accounted s₀ labels q errand answer := fun _ _ _ => accounted_run h₀ hs₀ hrun
  refine ⟨fun request fresh s' hstep => admission_of_step hstep,
    fun i d hd => hs.placed.requests.record hd, hanswers, fun q id answer hq => ?_,
    not_diverges hs.lively.intact, goes_or_over hs.lively⟩
  exact (hanswers q _ _ hq).endpoint h₀ hrun

/-- A request that insists on its region. -/
def strictRequest : Request where
  deploymentId := some "a"
  container := { image := "web" }
  region := "eu"
  scale := 1
  strictRegion := true

/-- It comes before and after the region is created; passes are asked for under the id of the
deployment and under another. -/
def strictRequests : List Label :=
  [.submit strictRequest "x", .change (.createRegion "eu"), .submit strictRequest "x",
    .trigger "a", .trigger "b", .advance 1, .advance 1, .advance 1, .advance 2, .advance 2,
    .advance 2, .advance 3]

theorem fails_up_front_strictRequests :
    oneNode.Fresh ∧ oneNode.tree.Sound ∧
      oneNode.settings.maxConcurrentDispatches.toNat ≤ Batch.maxPermits ∧
      ∃ s, run oneNode strictRequests = some s ∧ Unfailing oneNode strictRequests s ∧
        s.answer? 0 = some (.failed (.region (.notFound "eu"))) ∧
        s.answer? 1 = some (.accepted "a") ∧
        (s.answer? 2).map (fun answer => (Api.reported answer).status) = some 200 ∧
        (s.answer? 3).map (fun answer => (Api.reported answer).status) = some 404 := by
  have ht : oneNode.tree.Sound := Region.Tree.sound_new
  have hcap : oneNode.settings.maxConcurrentDispatches.toNat ≤ Batch.maxPermits := by decide +kernel
  have hend : (run oneNode strictRequests).any fun s =>
      s.answer? 0 == some (.failed (.region (.notFound "eu"))) &&
      s.answer? 1 == some (.accepted "a") &&
      (s.answer? 2).map (fun answer => (Api.reported answer).status) == some 200 &&
      (s.answer? 3).map (fun answer => (Api.reported answer).status) == some 404 := by
    decide +kernel
  obtain ⟨s, hrun, hs⟩ := (Option.any_eq_true ..).1 hend
  simp only [Bool.and_eq_true, beq_iff_eq] at hs
  obtain ⟨⟨⟨hrefused, haccepted⟩, hreported⟩, hmissed⟩ := hs
  exact ⟨fresh_oneNode, ht, hcap, s, hrun, fails_up_front fresh_oneNode ht hcap hrun, hrefused,
    haccepted, hreported, hmissed⟩

/-- A deployment is submitted and a pass of it is asked for. -/
def firstPasses : List Label :=
  [.submit { deploymentId := some "a", container := { image := "web" }, scale := 1 } "x",
    .trigger "a", .advance 0, .advance 0, .advance 0, .advance 1, .advance 1, .advance 1]

/-- A pass of a listed deployment comes to no report. -/
theorem passes_abort : manyPermits.Fresh ∧ manyPermits.tree.Sound ∧
    ∃ s, run manyPermits firstPasses = some s ∧ s.index.get? "a" = some 0 ∧
      s.answer? 1 = some .aborted ∧ (Api.reported .aborted).status = 500 := by
  have hend : (run manyPermits firstPasses).any fun s =>
      s.index.get? "a" == some 0 && s.answer? 1 == some .aborted := by decide +kernel
  obtain ⟨s, hrun, hs⟩ := (Option.any_eq_true ..).1 hend
  rw [Bool.and_eq_true, beq_iff_eq, beq_iff_eq] at hs
  exact ⟨⟨rfl, rfl, rfl⟩, Region.Tree.sound_new, s, hrun, hs.1, hs.2, rfl⟩

end Control

end FleetControl
