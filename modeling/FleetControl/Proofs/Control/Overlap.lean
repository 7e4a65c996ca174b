import FleetControl.Proofs.Control.Accounts
import FleetControl.Proofs.Control.Steps

/-!
# Overlapping passes of one deployment

The lock of a slot keeps passes on it apart. A deployment that is deleted and submitted again gets
another slot, with a lock of its own, and what is under way on the old slot goes on: two processes
can have calls to the engine in flight for one id (`Control.calls_overlap`).

It takes no less than that: calls in flight for one id belong to one process, or else to processes
on different slots, of which the older was taken out by a deletion before the younger was founded
(`Control.calls_apart`). What is kept along a run (`Control.Founding`) is who founded a slot under
which id, and that a slot stays listed under it until it is deleted.
-/

namespace FleetControl

namespace Control

/-! ### Calls in flight -/

/-- The call has begun and is not over. -/
def isRunning (c : Call) : Bool := c.status matches .running ..

/-- The slot on which a process has a call to the engine in flight for a deployment. -/
def State.callSlot? (s : State) (id : String) (p : ProcId) : Option SlotId :=
  match s.procs[p]? with
  | some ⟨_, .working i pass batch⟩ =>
    if pass.work.id = id ∧ batch.calls.any isRunning then some i else none
  | _ => none

theorem working_of_callSlot? {s : State} {id : String} {p : ProcId} {i : SlotId}
    (h : s.callSlot? id p = some i) :
    ∃ errand pass batch, s.IsWorking p errand i pass batch ∧ pass.work.id = id := by
  unfold State.callSlot? at h
  split at h
  · next errand j pass batch hproc =>
    split at h
    · next hid =>
      cases h
      exact ⟨errand, pass, batch, hproc, hid.1⟩
    · cases h
  · cases h

/-! ### Foundings and deletions -/

/-- Every request of the run that names no deployment is given an id that is not in use. -/
def FreshIds (s₀ : State) (labels : List Label) : Prop :=
  ∀ before l s, before ++ [l] <+: labels → run s₀ before = some s → FreshId s l

/-- A request names the deployment that it is for. -/
def Label.isNamed : Label → Bool
  | .submit request _ => !request.deploymentId.all Text.isBlank
  | _ => true

/-- A request of the run founded the deployment `n` on the slot `i`. -/
def Founded (s₀ : State) (labels : List Label) (n : String) (i : SlotId) : Prop :=
  ∃ before request fresh s, before ++ [.submit request fresh] <+: labels ∧ run s₀ before = some s ∧
    s.accept request fresh = .ok (s.found (s.newRecord request fresh),
      (s.newRecord request fresh).id) ∧
    s.slots.length = i ∧ (s.newRecord request fresh).id = n

/-- The deployment `n` was deleted in the run while it was listed on the slot `i` and there were `m`
slots at most. -/
def Deleted (s₀ : State) (labels : List Label) (n : String) (i m : SlotId) : Prop :=
  ∃ before s, before ++ [.delete n] <+: labels ∧ run s₀ before = some s ∧
    s.index.get? n = some i ∧ s.slots.length ≤ m

section

variable {s₀ s s' : State} {labels : List Label} {l : Label} {n : String} {i j m : SlotId}

theorem FreshIds.of_append (h : FreshIds s₀ (labels ++ [l])) : FreshIds s₀ labels :=
  fun before l' s hbefore => h before l' s (hbefore.trans (List.prefix_append ..))

/-- Where every request names its deployment, no id has to be given. -/
theorem freshIds_of_named (h : labels.all Label.isNamed) : FreshIds s₀ labels := by
  intro before l s hbefore _
  have hl := List.all_eq_true.1 h l (hbefore.subset (List.mem_append_right _ List.mem_cons_self))
  cases l with
  | submit request fresh =>
    intro hblank
    rw [Label.isNamed, hblank] at hl
    cases hl
  | _ => trivial

theorem FreshIds.last (h : FreshIds s₀ (labels ++ [l])) (hrun : run s₀ labels = some s) :
    FreshId s l :=
  h labels l s (List.prefix_refl _) hrun

theorem Founded.append (h : Founded s₀ labels n i) (l : Label) :
    Founded s₀ (labels ++ [l]) n i := by
  obtain ⟨before, request, fresh, s, hbefore, hrest⟩ := h
  exact ⟨before, request, fresh, s, hbefore.trans (List.prefix_append ..), hrest⟩

theorem Deleted.append (h : Deleted s₀ labels n i m) (l : Label) :
    Deleted s₀ (labels ++ [l]) n i m := by
  obtain ⟨before, s, hbefore, hrest⟩ := h
  exact ⟨before, s, hbefore.trans (List.prefix_append ..), hrest⟩

theorem Deleted.mono (h : Deleted s₀ labels n i m) {m' : Nat} (hm : m ≤ m') :
    Deleted s₀ labels n i m' := by
  obtain ⟨before, s, hbefore, hrun, hget, hle⟩ := h
  exact ⟨before, s, hbefore, hrun, hget, Nat.le_trans hle hm⟩

theorem concat_prefix {before : List Label} {x : Label} (h : before ++ [x] <+: labels ++ [l]) :
    before = labels ∧ x = l ∨ before ++ [x] <+: labels := by
  rw [List.prefix_concat_iff] at h
  refine h.imp_left fun h => ?_
  obtain ⟨hinit, hlast⟩ := List.append_inj' h rfl
  exact ⟨hinit, List.singleton_inj.1 hlast⟩

/-- A deployment is founded by the last step, or was before. -/
theorem Founded.of_append (h : Founded s₀ (labels ++ [l]) n i) (hrun : run s₀ labels = some s) :
    Founded s₀ labels n i ∨ ∃ request fresh, l = .submit request fresh ∧
      s.accept request fresh = .ok (s.found (s.newRecord request fresh),
        (s.newRecord request fresh).id) ∧
      s.slots.length = i ∧ (s.newRecord request fresh).id = n := by
  obtain ⟨before, request, fresh, s', hbefore, hrun', hrest⟩ := h
  rcases concat_prefix hbefore with ⟨rfl, hl⟩ | hbefore
  · cases hrun.symm.trans hrun'
    exact .inr ⟨request, fresh, hl.symm, hrest⟩
  · exact .inl ⟨before, request, fresh, s', hbefore, hrun', hrest⟩

/-! ### Names of slots -/

/-- The record of a slot, and what works on it, bear the id that the slot was founded under. -/
theorem upkeep_named (hrun : run s₀ labels = some s) (l : Label) :
    Upkeep s l (fun i d => Founded s₀ labels d.id i) (fun i d => Founded s₀ (labels ++ [l]) d.id i)
      (fun _ _ i p₀ => Founded s₀ labels p₀.work.id i)
      (fun _ _ i p₀ => Founded s₀ (labels ++ [l]) p₀.work.id i) := by
  have hbegun : ∀ d : Deployment, d.begun.id = d.id := fun d => by
    obtain ⟨state, heq⟩ := d.begun_eq
    rw [heq]
  have habsorb : ∀ d work : Deployment, (d.absorb work).id = work.id := fun d work => by
    obtain ⟨_, _, _, _, heq⟩ := d.absorb_eq work
    rw [heq]
  constructor
  case record_mono => exact fun hd => hd.append l
  case pass_mono => exact fun hp => hp.append l
  case founded =>
    rintro request fresh rfl haccept
    exact ⟨labels, request, fresh, s, List.prefix_refl _, hrun, haccept, rfl, rfl⟩
  case revised => exact fun _ _ _ hd => hd.append l
  case begun =>
    intro i d hd
    rw [hbegun]
    exact hd.append l
  case unplaced =>
    intro i d work e hd hstart
    rw [habsorb, (Pass.start_failed hstart).1.id, hbegun]
    exact hd.append l
  case opened =>
    intro p errand i sl pass selector _ _ _ _ hd hstart
    rw [(Pass.start_planned hstart).1.id, hbegun]
    exact hd.append l
  case drained => exact fun _ _ _ hd => hd.append l
  case finished =>
    intro p errand i p₀ q outs f work report d _ hb hcourse _ hend _
    rw [habsorb, (Pass.finished_eq hend).1.id, hcourse.copyOf.id]
    exact hb

/-! ### What a run keeps -/

/-- Slots are founded in their order, and listed until they are deleted. -/
structure Founding (s₀ : State) (labels : List Label) (s : State) : Prop where
  bound : ∀ {n i}, Founded s₀ labels n i → i < s.slots.length
  listed : ∀ {n i}, Founded s₀ labels n i →
    s.index.get? n = some i ∨ Deleted s₀ labels n i s.slots.length
  ordered : ∀ {n i j}, Founded s₀ labels n i → Founded s₀ labels n j → i < j →
    Deleted s₀ labels n i j

/-- The step that founds a deployment lists a new slot for it. -/
theorem index_of_founded {request : Request} {fresh : String}
    (haccept : s.accept request fresh = .ok (s.found (s.newRecord request fresh),
      (s.newRecord request fresh).id)) (hstep : step s (.submit request fresh) = some s') :
    s.existing request = none ∧
      s'.index = s.index.insert (s.newRecord request fresh).id s.slots.length ∧
      s'.slots.length = s.slots.length + 1 := by
  have hlength : (s.found (s.newRecord request fresh)).slots.length = s.slots.length + 1 := by
    simp [State.found]
  cases moves_of_step hstep with
  | refused e hrefused => cases haccept.symm.trans hrefused
  | @revised _ _ id j hrevised _ =>
    -- a request for a deployment that exists adds no slot
    have heq := congrArg (fun r => r.toOption.map (·.1.slots.length)) (haccept.symm.trans hrevised)
    simp only [Except.toOption, Option.map_some, Option.some.injEq, hlength, State.mapRecord,
      State.length_modifySlot] at heq
    omega
  | founded _ hexist => exact ⟨hexist, rfl, hlength⟩
  | called _ hcall => rcases hcall with ⟨⟨⟩, -⟩ | ⟨⟨⟩, -⟩

/-- What is listed stays so until it is deleted. -/
theorem Founding.listed_step (h : Founding s₀ labels s) (hrun : run s₀ labels = some s)
    (hfresh : FreshId s l) (hstep : Control.step s l = some s') (hi : Founded s₀ labels n i) :
    s'.index.get? n = some i ∨ Deleted s₀ (labels ++ [l]) n i s'.slots.length := by
  refine (h.listed hi).elim (fun hget => ?_) fun hdeleted =>
    .inr ((hdeleted.append l).mono (length_step hstep))
  rcases index_step hstep with ⟨hindex, -⟩ | ⟨request, fresh, rfl, hexist, -, hindex, -⟩ |
    ⟨id, j, rfl, -, hindex, hlength⟩
  · exact .inl (hindex ▸ hget)
  · -- the new deployment has another id
    have hne : n ≠ (s.newRecord request fresh).id := by
      rintro rfl
      cases hget.symm.trans (newRecord_unlisted hexist hfresh)
    refine .inl ?_
    rw [hindex, SortedMap.get?_insert_of_ne hne, hget]
  · by_cases hid : n = id
    · subst hid
      exact .inr ⟨labels, s, List.prefix_refl _, hrun, hget, Nat.le_of_eq hlength.symm⟩
    · refine .inl ?_
      rw [hindex, SortedMap.get?_erase, if_neg hid, hget]

theorem Founding.step (h : Founding s₀ labels s) (hrun : run s₀ labels = some s)
    (hfresh : FreshId s l) (hstep : Control.step s l = some s') :
    Founding s₀ (labels ++ [l]) s' where
  bound := fun hi => by
    rcases hi.of_append hrun with hi | ⟨request, fresh, rfl, haccept, rfl, -⟩
    · exact Nat.lt_of_lt_of_le (h.bound hi) (length_step hstep)
    · obtain ⟨-, -, hlength⟩ := index_of_founded haccept hstep
      exact hlength ▸ Nat.lt_succ_self _
  listed := fun hi => by
    rcases hi.of_append hrun with hi | ⟨request, fresh, rfl, haccept, rfl, rfl⟩
    · exact h.listed_step hrun hfresh hstep hi
    · obtain ⟨-, hindex, -⟩ := index_of_founded haccept hstep
      refine .inl ?_
      rw [hindex, SortedMap.get?_insert_self]
  ordered := fun {n i j} hi hj hij => by
    rcases hi.of_append hrun with hi₀ | ⟨request, fresh, -, -, rfl, -⟩ <;>
      rcases hj.of_append hrun with hj₀ | ⟨request', fresh', rfl, haccept, rfl, rfl⟩
    · exact (h.ordered hi₀ hj₀ hij).append l
    · -- the younger slot is founded now, so the older is not listed any more
      obtain ⟨hexist, -, -⟩ := index_of_founded haccept hstep
      have hnone := newRecord_unlisted hexist hfresh
      refine (h.listed hi₀).elim (fun hget => ?_) fun hdeleted => hdeleted.append _
      cases hget.symm.trans hnone
    · exact absurd (h.bound hj₀) (Nat.lt_asymm hij)
    · exact absurd hij (Nat.lt_irrefl _)

theorem Founding.run (hfresh : FreshIds s₀ labels) (hrun : Control.run s₀ labels = some s) :
    Founding s₀ labels s := by
  have hempty : ∀ {n i}, ¬ Founded s₀ [] n i := by
    rintro n i ⟨before, request, fresh, s, hbefore, -⟩
    simp at hbefore
  refine run_induction (P := fun labels s => FreshIds s₀ labels → Founding s₀ labels s) ?_ ?_ hrun
    hfresh
  · exact fun _ => ⟨fun hi => absurd hi hempty, fun hi => absurd hi hempty,
      fun hi => absurd hi hempty⟩
  · intro labels s l s' hrun h hstep hfresh
    exact (h hfresh.of_append).step hrun (hfresh.last hrun) hstep

end

/-! ### Passes of one deployment -/

/-- **Calls in flight for one deployment belong to one process**, or else to processes on two slots,
of which the older was taken out by a deletion before the younger was founded. -/
theorem calls_apart {s₀ s : State} (h₀ : s₀.Fresh) {labels : List Label}
    (hfresh : FreshIds s₀ labels) (hrun : run s₀ labels = some s) {id : String} {p q : ProcId}
    {i j : SlotId} (hp : s.callSlot? id p = some i) (hq : s.callSlot? id q = some j) (hpq : p ≠ q) :
    i < j ∧ Deleted s₀ labels id i j ∨ j < i ∧ Deleted s₀ labels id j i := by
  have hfounding := Founding.run hfresh hrun
  have htracks := Tracks.run (h₀.tracks _ _) (fun labels s l hrun => upkeep_named hrun l) hrun
  obtain ⟨errand, pass, batch, hp, hid⟩ := working_of_callSlot? hp
  obtain ⟨errand', pass', batch', hq, hid'⟩ := working_of_callSlot? hq
  have hfounded : ∀ {p errand i pass batch}, s.IsWorking p errand i pass batch →
      pass.work.id = id → Founded s₀ labels id i := by
    intro p errand i pass batch hp hid
    obtain ⟨-, p₀, outs, hb, hcourse⟩ := htracks.pass hp
    rwa [← hcourse.copyOf.id, hid] at hb
  have hi := hfounded hp hid
  have hj := hfounded hq hid'
  -- the lock of a slot keeps two processes apart
  have hij : i ≠ j := fun hij =>
    hpq ((hq.eq_of_held (h₀.intact.run hrun).locked hp rfl).1 hij)
  rcases Nat.lt_or_gt_of_ne hij with hij | hij
  · exact .inl ⟨hij, hfounding.ordered hi hj hij⟩
  · exact .inr ⟨hij, hfounding.ordered hj hi hij⟩

/-- A deployment is deleted while a call for it is in flight, and submitted again. -/
def deletedAndSubmitted : List Label :=
  [.change (.setLatency "n" 100),
    .submit { deploymentId := some "a", container := { image := "web" }, scale := 1 } "b"] ++
  List.replicate 4 (.advance 0) ++
  [.startCall 0 0, .delete "a",
    .submit { deploymentId := some "a", container := { image := "web" }, scale := 1 } "b"] ++
  List.replicate 4 (.advance 2) ++ [.startCall 2 0]

theorem callSlots_deletedAndSubmitted :
    ∃ s, run oneNode deletedAndSubmitted = some s ∧ s.callSlot? "a" 0 = some 0 ∧
      s.callSlot? "a" 2 = some 1 := by
  have hend : (run oneNode deletedAndSubmitted).any fun s =>
      s.callSlot? "a" 0 == some 0 && s.callSlot? "a" 2 == some 1 := by decide +kernel
  obtain ⟨s, hrun, hs⟩ := (Option.any_eq_true ..).1 hend
  rw [Bool.and_eq_true, beq_iff_eq, beq_iff_eq] at hs
  exact ⟨s, hrun, hs⟩

theorem calls_apart_deletedAndSubmitted :
    oneNode.Fresh ∧ FreshIds oneNode deletedAndSubmitted ∧
      Deleted oneNode deletedAndSubmitted "a" 0 1 := by
  have hfresh : FreshIds oneNode deletedAndSubmitted := freshIds_of_named (by decide)
  obtain ⟨s, hrun, hp, hq⟩ := callSlots_deletedAndSubmitted
  rcases calls_apart fresh_oneNode hfresh hrun hp hq (by decide) with ⟨-, hdeleted⟩ | ⟨hlt, -⟩
  · exact ⟨fresh_oneNode, hfresh, hdeleted⟩
  · exact absurd hlt (by decide)

/-- **Calls of two passes of one deployment overlap** when it is deleted and submitted again. -/
theorem calls_overlap :
    oneNode.Fresh ∧ ∃ s, run oneNode deletedAndSubmitted = some s ∧ ∃ p q : ProcId, p ≠ q ∧
      (s.callSlot? "a" p).isSome ∧ (s.callSlot? "a" q).isSome := by
  obtain ⟨s, hrun, hp, hq⟩ := callSlots_deletedAndSubmitted
  exact ⟨fresh_oneNode, s, hrun, 0, 2, by decide, by rw [hp]; rfl, by rw [hq]; rfl⟩

end Control

end FleetControl
