import FleetControl.Proofs.Control.Placeable
import FleetControl.Proofs.Control.Progress

/-!
# What calls come to

`Control.Accounted` lists how a call of a client can come to its answer when regions are only added
and the permits of a plan can be counted:

* a request is turned away where it is submitted, for its region, and nowhere else;
* a pass that was asked for comes to a report, or to nothing where its deployment is not listed when
  it is looked up; for a request that was accepted this takes a deletion in between;
* a pass of a sweep comes to a report, and a deletion to what is left.

Every answer in every state of a run is accounted for (`Control.accounted_run`).
-/

namespace FleetControl

namespace Control

/-- The process looked its deployment up in the run and met with what is given. -/
def LookedUp (s₀ : State) (labels : List Label) (q : ProcId) (id : String) (met : Option SlotId) :
    Prop :=
  ∃ before s errand, before ++ [.advance q] <+: labels ∧ run s₀ before = some s ∧
    s.procs[q]? = some ⟨errand, .lookup id⟩ ∧ s.index.get? id = met

/-- The request that the process is for was accepted for the deployment in the run; the steps
`middle` have come since. -/
def AcceptedAt (s₀ : State) (labels : List Label) (q : ProcId) (id : String)
    (middle : List Label) : Prop :=
  ∃ before s s' request fresh, labels = before ++ .submit request fresh :: middle ∧
    run s₀ before = some s ∧ s.procs.size = q ∧ s.accept request fresh = .ok (s', id)

/-- How the process can come to its answer in the run. -/
inductive Accounted (s₀ : State) (labels : List Label) (q : ProcId) : Errand → Answer → Prop
  /-- The request cannot be placed where it is submitted. -/
  | refused {before : List Label} {s : State} {request : Request} {fresh : String}
      {e : Region.Error} : before ++ [.submit request fresh] <+: labels →
      run s₀ before = some s → s.procs.size = q → s.validate request = .error e →
      Accounted s₀ labels q (.submit fresh) (.failed (.region e))
  | accepted {id : String} {i : SlotId} : LookedUp s₀ labels q id (some i) →
      Accounted s₀ labels q (.submit id) (.accepted id)
  /-- The deployment is deleted between its acceptance and its first pass. -/
  | overtaken {id : String} {middle : List Label} {before : List Label} :
      before ++ [.advance q] <+: labels → AcceptedAt s₀ before q id middle → .delete id ∈ middle →
      LookedUp s₀ labels q id none →
      Accounted s₀ labels q (.submit id) (.failed (.deploymentNotFound id))
  | reported {id : String} {i : SlotId} (report : Report) : LookedUp s₀ labels q id (some i) →
      Accounted s₀ labels q (.trigger id) (.reported report)
  /-- No deployment is listed under the id. -/
  | missed {id : String} : LookedUp s₀ labels q id none →
      Accounted s₀ labels q (.trigger id) (.failed (.deploymentNotFound id))
  | swept (id : String) (report : Report) : Accounted s₀ labels q (.sweep id) (.reported report)
  | deleted (id : String) (final : Deployment) : Accounted s₀ labels q (.delete id) (.deleted final)
  /-- No deployment was listed under the id when the deletion was asked for. -/
  | unknown (id : String) : Accounted s₀ labels q (.delete id) (.failed (.deploymentNotFound id))

/-- How far the process can be in the run, when its deployment is listed as in `s`. -/
inductive Account (s₀ : State) (labels : List Label) (s : State) (q : ProcId) :
    Errand → Stage → Prop
  | submitted {id : String} {middle : List Label} : AcceptedAt s₀ labels q id middle →
      (s.index.get? id).isSome ∨ .delete id ∈ middle →
      Account s₀ labels s q (.submit id) (.lookup id)
  | triggered (id : String) : Account s₀ labels s q (.trigger id) (.lookup id)
  | found {errand : Errand} {id : String} {i : SlotId} {stage : Stage} :
      errand = .submit id ∨ errand = .trigger id → LookedUp s₀ labels q id (some i) →
      stage.slot?.isSome → Account s₀ labels s q errand stage
  | placed {errand : Errand} {id : String} {stage : Stage} :
      errand = .sweep id ∨ errand = .delete id → stage.slot?.isSome →
      Account s₀ labels s q errand stage
  | ended {errand : Errand} {answer : Answer} : Accounted s₀ labels q errand answer →
      Account s₀ labels s q errand (.ended answer)

section

variable {s₀ s s' s₁ : State} {labels middle : List Label} {l : Label} {p q : ProcId} {id : String}
  {errand : Errand} {stage new : Stage} {i : SlotId} {met : Option SlotId} {answer : Answer}
  {progress : Progress}

/-! ### Runs that go on -/

theorem LookedUp.append (h : LookedUp s₀ labels q id met) (l : Label) :
    LookedUp s₀ (labels ++ [l]) q id met := by
  obtain ⟨before, s, errand, hbefore, hrest⟩ := h
  exact ⟨before, s, errand, hbefore.trans (List.prefix_append ..), hrest⟩

theorem AcceptedAt.append (h : AcceptedAt s₀ labels q id middle) (l : Label) :
    AcceptedAt s₀ (labels ++ [l]) q id (middle ++ [l]) := by
  obtain ⟨before, s, s', request, fresh, rfl, hrest⟩ := h
  exact ⟨before, s, s', request, fresh, by simp, hrest⟩

theorem Accounted.append (h : Accounted s₀ labels q errand answer) (l : Label) :
    Accounted s₀ (labels ++ [l]) q errand answer := by
  cases h with
  | refused hbefore hrun hsize he =>
    exact .refused (hbefore.trans (List.prefix_append ..)) hrun hsize he
  | accepted hfound => exact .accepted (hfound.append l)
  | overtaken hbefore hat hdelete hmissed =>
    exact .overtaken (hbefore.trans (List.prefix_append ..)) hat hdelete (hmissed.append l)
  | reported report hfound => exact .reported report (hfound.append l)
  | missed hmissed => exact .missed (hmissed.append l)
  | swept id report => exact .swept id report
  | deleted id final => exact .deleted id final
  | unknown id => exact .unknown id

/-- Only a deletion takes an id off the index. -/
theorem listed_or_deleted (hstep : step s l = some s') (h : (s.index.get? id).isSome) :
    (s'.index.get? id).isSome ∨ l = .delete id := by
  rcases index_step hstep with ⟨hindex, -⟩ | ⟨request, fresh, -, -, -, hindex, -⟩ |
    ⟨id', j, rfl, -, hindex, -⟩
  · exact .inl (hindex ▸ h)
  · rw [hindex]
    by_cases hid : id = (s.newRecord request fresh).id
    · simp [hid, SortedMap.get?_insert_self]
    · simp [SortedMap.get?_insert_of_ne hid, h]
  · by_cases hid : id = id'
    · exact .inr (hid ▸ rfl)
    · simp [hindex, SortedMap.get?_erase, hid, h]

/-- A request that is accepted is for a deployment that is listed then. -/
theorem listed_of_accept {request : Request} {fresh : String}
    (haccept : s.accept request fresh = .ok (s₁, id))
    (hstep : step s (.submit request fresh) = some s') : (s'.index.get? id).isSome := by
  cases moves_of_step hstep with
  | refused e haccept' => cases haccept.symm.trans haccept'
  | revised haccept' hget =>
    cases haccept.symm.trans haccept'
    exact Option.isSome_iff_exists.2 ⟨_, hget⟩
  | founded haccept' _ =>
    cases haccept.symm.trans haccept'
    refine Option.isSome_iff_exists.2 ⟨s.slots.length, ?_⟩
    exact SortedMap.get?_insert_self ..
  | called _ hcall => cases actor?_of_called hcall

theorem Account.append (h : Account s₀ labels s q errand stage) (hstep : step s l = some s') :
    Account s₀ (labels ++ [l]) s' q errand stage := by
  cases h with
  | submitted hat hlisted =>
    refine .submitted (hat.append l) ?_
    rcases hlisted with hlisted | hdelete
    · rcases listed_or_deleted hstep hlisted with hlisted | rfl
      · exact .inl hlisted
      · simp
    · simp [hdelete]
  | triggered id => exact .triggered id
  | found herrand hfound hslot => exact .found herrand (hfound.append l) hslot
  | placed herrand hslot => exact .placed herrand hslot
  | ended haccounted => exact .ended (haccounted.append l)

/-! ### Steps of the process -/

/-- A process that knows its slot goes on to another stage with it. -/
theorem Account.move (h : Account s₀ labels s q errand stage) (hslot : stage.slot?.isSome)
    (hnew : new.slot?.isSome) : Account s₀ labels s q errand new := by
  cases h with
  | submitted _ _ => cases hslot
  | triggered id => cases hslot
  | found herrand hfound _ => exact .found herrand hfound hnew
  | placed herrand _ => exact .placed herrand hnew
  | ended _ => cases hslot

/-- A pass that went through, or a deletion, comes to its answer. -/
theorem Account.finish (h : Account s₀ labels s q errand stage) (hslot : stage.slot?.isSome)
    (work : Deployment) (report : Report) :
    Accounted s₀ labels q errand (State.answerOf errand work report) := by
  cases h with
  | submitted _ _ => cases hslot
  | triggered id => cases hslot
  | found herrand hfound _ =>
    rcases herrand with rfl | rfl
    · exact .accepted hfound
    · exact .reported report hfound
  | @placed _ id _ herrand _ =>
    rcases herrand with rfl | rfl
    · exact .swept id report
    · exact .deleted id work
  | ended _ => cases hslot

theorem lookedUp_last (hrun : run s₀ labels = some s)
    (hq : s.procs[q]? = some ⟨errand, .lookup id⟩) (hget : s.index.get? id = met) :
    LookedUp s₀ (labels ++ [.advance q]) q id met :=
  ⟨labels, s, errand, List.prefix_refl _, hrun, hq, hget⟩

/-- A process that looks its deployment up goes on to its slot. -/
theorem Account.look (h : Account s₀ labels s q errand (.lookup id))
    (hrun : run s₀ labels = some s) (hq : s.procs[q]? = some ⟨errand, .lookup id⟩)
    (hget : s.index.get? id = some i) :
    Account s₀ (labels ++ [.advance q]) s' q errand (.approach i) := by
  have hfound := lookedUp_last hrun hq hget
  cases h with
  | submitted _ _ => exact .found (.inl rfl) hfound rfl
  | triggered _ => exact .found (.inr rfl) hfound rfl
  | found _ _ hslot => cases hslot
  | placed _ hslot => cases hslot

/-- One that does not find it is over. -/
theorem Account.miss (h : Account s₀ labels s q errand (.lookup id))
    (hrun : run s₀ labels = some s) (hq : s.procs[q]? = some ⟨errand, .lookup id⟩)
    (hget : s.index.get? id = none) :
    Accounted s₀ (labels ++ [.advance q]) q errand (.failed (.deploymentNotFound id)) := by
  have hmissed := lookedUp_last hrun hq hget
  cases h with
  | submitted hat hlisted =>
    exact .overtaken (List.prefix_refl _) hat (hlisted.resolve_left (by simp [hget])) hmissed
  | triggered _ => exact .missed hmissed
  | found _ _ hslot => cases hslot
  | placed _ hslot => cases hslot

theorem Turn.account (hturn : Turn s q errand i s₁ progress)
    (h : ∀ stage, s.procs[q]? = some ⟨errand, stage⟩ → Account s₀ labels s q errand stage) :
    ∃ stage, Account s₀ labels s q errand stage ∧ stage.slot?.isSome := by
  obtain ⟨stage, hproc, hheld⟩ := hturn.proc
  exact ⟨stage, h stage hproc, by simp [Stage.slot?_of_held hheld]⟩

/-! ### Runs without trouble -/

/-- The permits of a plan can be counted. -/
def Countable (s : State) : Prop := s.settings.maxConcurrentDispatches.toNat ≤ Batch.maxPermits

theorem Countable.permits_le (h : Countable s) (plan : List Dispatch) :
    (s.batchOf plan).permits ≤ Batch.maxPermits :=
  Batch.permits_ofPlan_le h _ plan

theorem Countable.step (h : Countable s) (hstep : Control.step s l = some s') : Countable s' := by
  rwa [Countable, settings_step hstep]

theorem Countable.turn (h : Countable s) (hturn : Turn s p errand i s₁ progress) :
    Countable s₁ := by
  rwa [Countable, hturn.sameWorld.settings]

/-- A control plane with one permit more than can be counted. -/
def manyPermits : State :=
  { oneNode with settings := { maxConcurrentDispatches := 2305843009213693952 } }

/-- What keeps calls from failing on their way. -/
structure Reliable (s : State) : Prop where
  lively : Lively s
  placed : Placed s
  countable : Countable s

theorem Reliable.step (h : Reliable s) (hstep : Control.step s l = some s') : Reliable s' :=
  ⟨h.lively.step hstep, h.placed.step hstep, h.countable.step hstep⟩

theorem State.Fresh.reliable (h : s.Fresh) (ht : s.tree.Sound) (hcap : Countable s) :
    Reliable s :=
  ⟨h.lively, h.placed ht, hcap⟩

theorem Reliable.run (h : Reliable s) {labels : List Label}
    (hrun : Control.run s labels = some s') : Reliable s' :=
  run_induction (P := fun _ s' => Reliable s') h (fun _ _ _ _ _ hs hstep => hs.step hstep) hrun

/-- **A step keeps every process accounted for.** -/
theorem Account.step (hs : Reliable s) (hrun : Control.run s₀ labels = some s)
    (h : ∀ errand stage, s.procs[q]? = some ⟨errand, stage⟩ → Account s₀ labels s q errand stage)
    (hstep : Control.step s l = some s') (hq : s'.procs[q]? = some ⟨errand, stage⟩) :
    Account s₀ (labels ++ [l]) s' q errand stage := by
  have hmove : ∀ {errand : Errand} {old new : Stage}, s.procs[q]? = some ⟨errand, old⟩ →
      old.slot?.isSome → new.slot?.isSome → Account s₀ (labels ++ [l]) s' q errand new :=
    fun hold hslot hnew => ((h _ _ hold).append hstep).move hslot hnew
  cases arrives_of_step hs.lively.intact.locked hstep hq with
  | stayed _ hold => exact (h _ _ hold).append hstep
  | handed _ hold => exact hmove hold rfl rfl
  | refused hsize haccept =>
    exact .ended (.refused (List.prefix_refl _) hrun hsize (State.accept_eq_error_iff.1 haccept))
  | accepted hsize haccept =>
    refine .submitted ⟨labels, s, _, _, _, rfl, hrun, hsize, haccept⟩ (.inl ?_)
    exact listed_of_accept haccept hstep
  | triggered id _ => exact .triggered id
  | unknown _ _ => exact .ended (.unknown _)
  | unlisted _ _ => exact .placed (.inr rfl) rfl
  | swept _ _ => exact .placed (.inl rfl) rfl
  | missed hold hget => exact .ended ((h _ _ hold).miss hrun hold hget)
  | looked hold hget => exact (h _ _ hold).look hrun hold hget
  | flagged hold => exact hmove hold rfl rfl
  | locked hold => exact hmove hold rfl rfl
  | waited hold _ => exact hmove hold rfl rfl
  | unplaced _ _ hslot hstart => exact absurd hstart (hs.placed.start_ne_failed hslot _ _)
  | dispatched hturn =>
    obtain ⟨old, hold, hslot⟩ := hturn.account (h _)
    exact (hold.append hstep).move hslot rfl
  | aborted hturn hover =>
    exact absurd hover (Nat.not_lt.2 ((hs.countable.turn hturn).permits_le _))
  | finished hturn =>
    obtain ⟨old, hold, hslot⟩ := hturn.account (h _)
    exact .ended ((hold.append hstep).finish hslot _ _)
  | issued hold _ => exact hmove hold rfl rfl
  | called _ hold _ => exact hmove hold rfl rfl

theorem account_run (h₀ : s₀.Fresh) (hs₀ : Reliable s₀) (hrun : run s₀ labels = some s) :
    ∀ q errand stage, s.procs[q]? = some ⟨errand, stage⟩ →
      Account s₀ labels s q errand stage := by
  refine run_induction (P := fun labels s => ∀ q errand stage,
    s.procs[q]? = some ⟨errand, stage⟩ → Account s₀ labels s q errand stage) ?_ ?_ hrun
  · intro q errand stage hq
    simp [h₀.procs] at hq
  · intro labels s l s' hrun h hstep q errand stage hq
    exact Account.step (hs₀.run hrun) hrun (h q) hstep hq

/-- **Every answer is accounted for.** -/
theorem accounted_run (h₀ : s₀.Fresh) (hs₀ : Reliable s₀) (hrun : run s₀ labels = some s)
    (hq : s.procs[q]? = some ⟨errand, .ended answer⟩) : Accounted s₀ labels q errand answer := by
  cases account_run h₀ hs₀ hrun q errand _ hq with
  | found _ _ hslot => cases hslot
  | placed _ hslot => cases hslot
  | ended haccounted => exact haccounted

end

end Control

end FleetControl
