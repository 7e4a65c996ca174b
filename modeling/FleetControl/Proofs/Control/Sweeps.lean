import FleetControl.Proofs.Control.Published
import FleetControl.Proofs.Pass.Likeness

/-!
# Runs of passes alone

A step is *inner* if it is one of a process, of the clocks or of a container that dies
(`Label.isInner`). In a run of such steps, and of clients who ask for passes, nothing changes that a
pass depends on, but for the record that it works on (`Control.Unmoved`), as long as the policy draws
nothing.

* A sweep starts one process for each deployment that is listed, in the order of the ids
  (`State.keys_sweep`, `State.procs_sweep`).
* No listed deployment is flagged (`Control.Unflagged`).
* The processes that such a run starts attend to the deployments of their errands, each to its own
  (`Control.Attends`).
* Inner steps lead on to where all processes are over (`Control.exists_over`).
-/

namespace FleetControl

namespace Control

/-- The step is one of a process, of the clocks, or of a container that dies. -/
def Label.isInner : Label → Bool
  | .advance _ | .startCall .. | .settleCall .. | .elapse _ => true
  | .change (.kill _) | .change (.setWall _) => true
  | _ => false

/-- The step is inner, or a client asks for passes. -/
def Label.isPassing : Label → Bool
  | .trigger _ | .sweep => true
  | l => l.isInner

/-- How many passes of a listed deployment a step starts. -/
def Label.passes (id : String) : Label → Nat
  | .trigger id' => if id' = id then 1 else 0
  | .sweep => 1
  | _ => 0

/-- How many passes of a listed deployment start in a run. -/
def passes (id : String) (labels : List Label) : Nat := (labels.map (Label.passes id)).sum

/-- The process is for a pass of the deployment. -/
def Errand.IsFor (errand : Errand) (id : String) : Prop := errand = .trigger id ∨ errand = .sweep id

section

variable {s s' s₁ : State} {l : Label} {p q n : ProcId} {id id' : String} {errand errand' : Errand}
  {stage old new : Stage} {i j : SlotId}

theorem Label.isPassing_of_isInner (h : l.isInner) : l.isPassing := by
  cases l <;> first | rfl | exact h

theorem Label.passes_of_isInner (h : l.isInner) (id : String) : l.passes id = 0 := by
  cases l <;> first | rfl | cases h

theorem passes_concat (id : String) (labels : List Label) (l : Label) :
    passes id (labels ++ [l]) = passes id labels + l.passes id := by
  simp [passes]

theorem Errand.IsFor.isPass (h : errand.IsFor id) : errand.IsPass := by
  rintro id' rfl
  rcases h with h | h <;> cases h

theorem Errand.IsFor.unique (h : errand.IsFor id) (h' : errand.IsFor id') : id = id' := by
  rcases h with rfl | rfl <;> rcases h' with h' | h' <;> cases h' <;> rfl

theorem Errand.IsFor.answerOf (h : errand.IsFor id) (work : Deployment) (report : Report) :
    State.answerOf errand work report = .reported report := by
  rcases h with rfl | rfl <;> rfl

/-! ### What passes depend on -/

/-- Nothing is different that passes depend on, but for records and clocks. -/
structure Unmoved (s s' : State) : Prop extends SameWorld s s' where
  index : s'.index = s.index
  selector : s'.selector = s.selector

theorem Unmoved.refl (s : State) : Unmoved s s := ⟨.refl s, rfl, rfl⟩

theorem Unmoved.trans (h : Unmoved s s') (h' : Unmoved s' s₁) : Unmoved s s₁ :=
  ⟨h.toSameWorld.trans h'.toSameWorld, h'.index.trans h.index, h'.selector.trans h.selector⟩

theorem Unmoved.still (h : Unmoved s s') : s'.fleet.still = s.fleet.still := by
  simp [State.fleet, Fleet.still, h.tree, h.registry, h.selector]

/-- Passes move nothing that passes depend on. -/
theorem unmoved_step (hsteady : s.selector.policy.IsSteady) (hl : l.isPassing)
    (hstep : step s l = some s') : Unmoved s s' := by
  have hworld : SameWorld s s' := by
    rcases sameWorld_step hstep with hsame | ⟨c, rfl, rfl⟩
    · exact hsame
    · cases c <;> first | exact ⟨rfl, rfl, rfl, ⟨rfl, rfl⟩⟩ | cases hl
  refine ⟨hworld, ?_, ?_⟩
  · rcases index_step hstep with ⟨hindex, -⟩ | ⟨request, fresh, rfl, -⟩ | ⟨id, i, rfl, -⟩
    · exact hindex
    · cases hl
    · cases hl
  · rcases selector_step hstep with hsame | ⟨d, pass, hstart⟩
    · exact hsame
    · exact Pass.start_steady hsteady hstart

/-! ### Sweeps -/

/-- A sweep numbers its processes in the order of the ids. -/
theorem State.sweep_eq (s : State) :
    s.sweep.1.procs.toList = s.procs.toList ++
        s.index.toList.map (fun e => ⟨.sweep e.1, .approach e.2⟩) ∧
      s.sweep.2 = (s.index.toList.zipIdx s.procs.size).map fun e => (e.1.1, e.2) := by
  suffices ∀ (entries : List (String × SlotId)) (started : List (String × ProcId)) (s' : State),
      (entries.foldl (fun swept e =>
        ((swept.1.spawn (.sweep e.1) (.approach e.2)).1,
          swept.2 ++ [(e.1, (swept.1.spawn (.sweep e.1) (.approach e.2)).2)]))
        (s', started)).1.procs.toList = s'.procs.toList ++
          entries.map (fun e => ⟨.sweep e.1, .approach e.2⟩) ∧
      (entries.foldl (fun swept e =>
        ((swept.1.spawn (.sweep e.1) (.approach e.2)).1,
          swept.2 ++ [(e.1, (swept.1.spawn (.sweep e.1) (.approach e.2)).2)]))
        (s', started)).2 = started ++
          (entries.zipIdx s'.procs.size).map fun e => (e.1.1, e.2) from this _ [] s
  intro entries
  induction entries with
  | nil => simp
  | cons e rest ih =>
    intro started s'
    obtain ⟨hprocs, hstarted⟩ := ih
      (started ++ [(e.1, (s'.spawn (.sweep e.1) (.approach e.2)).2)])
      (s'.spawn (.sweep e.1) (.approach e.2)).1
    rw [List.foldl_cons]
    refine ⟨hprocs.trans ?_, hstarted.trans ?_⟩
    · simp [State.spawn]
    · simp [State.spawn]

/-- A sweep starts one process for each listed deployment, by ascending id. -/
theorem State.keys_sweep (s : State) : s.sweep.2.map (·.1) = s.index.keys := by
  have hkeys : (s.index.toList.zipIdx s.procs.size).map Prod.fst = s.index.toList :=
    List.zipIdx_map_fst _ _
  have hids := congrArg (List.map Prod.fst) hkeys
  rw [List.map_map] at hids
  rw [s.sweep_eq.2, List.map_map]
  exact hids

/-- What a sweep does to the processes. -/
theorem State.procs_sweep (s : State) (q : ProcId) : s.sweep.1.procs[q]? =
    if q < s.procs.size then s.procs[q]?
    else (s.index.toList[q - s.procs.size]?).map fun e => ⟨.sweep e.1, .approach e.2⟩ := by
  rw [← Array.getElem?_toList, s.sweep_eq.1, List.getElem?_append, List.getElem?_map,
    Array.length_toList, Array.getElem?_toList]

theorem State.proc_of_sweep (h : (id, q) ∈ s.sweep.2) : s.procs.size ≤ q ∧
    ∃ i, s.index.get? id = some i ∧ s.sweep.1.procs[q]? = some ⟨.sweep id, .approach i⟩ := by
  rw [s.sweep_eq.2] at h
  obtain ⟨⟨⟨id', i⟩, q'⟩, hmem, heq⟩ := List.mem_map.1 h
  obtain ⟨hle, hget⟩ := List.mk_mem_zipIdx_iff_le_and_getElem?_sub.1 hmem
  cases heq
  refine ⟨hle, i, SortedMap.mem_toList.1 (List.mem_of_getElem? hget), ?_⟩
  rw [s.procs_sweep, if_neg (Nat.not_lt.2 hle), hget]
  rfl

/-- No two processes of a sweep are for one deployment. -/
theorem State.sweep_unique (hp : s.sweep.1.procs[p]? = some ⟨.sweep id, old⟩)
    (hq : s.sweep.1.procs[q]? = some ⟨.sweep id, new⟩) (hle : s.procs.size ≤ p)
    (hle' : s.procs.size ≤ q) : p = q := by
  have hkey : ∀ {q stage}, s.procs.size ≤ q → s.sweep.1.procs[q]? = some ⟨.sweep id, stage⟩ →
      s.index.keys[q - s.procs.size]? = some id := by
    intro q stage hle hq
    rw [s.procs_sweep, if_neg (Nat.not_lt.2 hle)] at hq
    obtain ⟨⟨id', i⟩, hget, heq⟩ := Option.map_eq_some_iff.1 hq
    cases heq
    rw [SortedMap.keys, List.getElem?_map, ← SortedMap.toList, hget]
    rfl
  have hsame := (List.getElem?_inj (List.getElem?_eq_some_iff.1 (hkey hle hp)).1 s.index.nodup_keys).1
    ((hkey hle hp).trans (hkey hle' hq).symm)
  rw [← Nat.sub_add_cancel hle, hsame, Nat.sub_add_cancel hle']

/-! ### Listed deployments are not flagged -/

/-- No listed deployment is flagged, or about to be. -/
def Unflagged (s : State) : Prop :=
  ∀ ⦃i : SlotId⦄, s.Listed i → s.cancelledAt i = some false ∧ ∀ p, ¬ s.Flags p i

theorem State.Fresh.unflagged (h : s.Fresh) : Unflagged s := by
  rintro i ⟨id, hget⟩
  simp [h.index, SortedMap.get?_empty] at hget

/-- A deployment that is founded has a slot of its own. -/
theorem unflagged_founded (hI : Intact s) {request : Request} {fresh : String}
    (hstep : step s (.submit request fresh) = some s')
    (hlength : s'.slots.length = s.slots.length + 1) :
    s'.cancelledAt s.slots.length = some false ∧ ∀ p, ¬ s'.Flags p s.slots.length := by
  refine ⟨?_, ?_⟩
  · cases moves_of_step hstep with
    | refused _ _ => exact absurd hlength (Nat.ne_of_lt (Nat.lt_succ_self _))
    | @revised _ _ _ j _ _ =>
      have hsame : (s.mapRecord j (·.update request)).slots.length = s.slots.length :=
        State.length_modifySlot ..
      exact absurd (hsame.symm.trans hlength) (Nat.ne_of_lt (Nat.lt_succ_self _))
    | founded _ _ =>
      have hslot := State.slots_found (s := s) (s.newRecord request fresh) s.slots.length
      rw [if_pos rfl] at hslot
      exact congrArg (Option.map Slot.cancelled) hslot
    | called _ hcall => cases actor?_of_called hcall
  · rintro p ⟨errand, hp⟩
    cases arrives_of_step hI.locked hstep hp with
    | stayed _ hold => exact absurd (hI.locked.placed_proc hold rfl) (Nat.lt_irrefl _)

theorem Unflagged.step (h : Unflagged s) (hI : Intact s) (hstep : Control.step s l = some s') :
    Unflagged s' := by
  rintro i ⟨id, hget⟩
  rcases listed_step hstep hget with hold | ⟨rfl, hlength, request, fresh, rfl, -⟩
  · obtain ⟨hflag, hnone⟩ := h ⟨id, hold⟩
    refine ⟨?_, ?_⟩
    · rcases flag_step hstep (hI.bound hold) with hsame | ⟨⟨p, hp⟩, -⟩
      · rw [hsame, hflag]
      · exact absurd hp (hnone p)
    · rintro p ⟨errand, hp⟩
      cases arrives_of_step hI.locked hstep hp with
      | stayed _ hflags => exact hnone p ⟨errand, hflags⟩
      | unlisted _ hget' =>
        -- the slot is taken off the index when it is to be flagged
        cases hI.injective hold hget'
        rw [Control.step, State.delete, hold] at hstep
        cases hstep
        have herased : (s.index.erase id).get? id = some i := hget
        rw [SortedMap.get?_erase, if_pos rfl] at herased
        cases herased
  · exact unflagged_founded hI hstep hlength

theorem Unflagged.run (h : Unflagged s) (hI : Intact s) {labels : List Label}
    (hrun : Control.run s labels = some s') : Unflagged s' :=
  run_induction (P := fun _ s' => Unflagged s') h
    (fun _ _ _ _ hrun hs hstep => hs.step (hI.run hrun) hstep) hrun

/-! ### Processes attend to their deployments -/

/-- What a process can be from the state `s` on, where all before `n` are over. -/
inductive Attends (s : State) (n q : ProcId) : Errand → Stage → Prop
  | ended (errand : Errand) (answer : Answer) : Attends s n q errand (.ended answer)
  | ahead {errand : Errand} {id : String} : n ≤ q → errand.IsFor id →
      Attends s n q errand (.lookup id)
  | placed {errand : Errand} {id : String} {stage : Stage} {i : SlotId} : n ≤ q → errand.IsFor id →
      s.index.get? id = some i → stage.slot? = some i → Attends s n q errand stage

theorem Attends.move (h : Attends s n q errand old) (hold : old.slot? = some i)
    (hnew : new.slot? = some i) : Attends s n q errand new := by
  cases h with
  | ended _ => cases hold
  | ahead _ _ => cases hold
  | placed hle hfor hget hslot =>
    cases hslot.symm.trans hold
    exact .placed hle hfor hget hnew

theorem Attends.look (h : Attends s n q errand (.lookup id)) (hget : s.index.get? id = some i) :
    Attends s n q errand (.approach i) := by
  cases h with
  | ahead hle hfor => exact .placed hle hfor hget rfl
  | placed _ _ _ hslot => cases hslot

/-- **Passes attend to their own deployments.** -/
theorem Attends.step (h : ∀ errand stage, s'.procs[q]? = some ⟨errand, stage⟩ →
      Attends s n q errand stage) (hI : Intact s') (hindex : s'.index = s.index)
    (hn : n ≤ s'.procs.size) (hl : l.isPassing) (hstep : Control.step s' l = some s₁)
    (hq : s₁.procs[q]? = some ⟨errand, stage⟩) : Attends s n q errand stage := by
  cases arrives_of_step hI.locked hstep hq with
  | stayed _ hold => exact h _ _ hold
  | handed _ hold => exact (h _ _ hold).move rfl rfl
  | refused _ _ => cases hl
  | accepted _ _ => cases hl
  | triggered id hsize => exact .ahead (hsize ▸ hn) (.inl rfl)
  | unknown _ _ => cases hl
  | unlisted _ _ => cases hl
  | swept hsize hget => exact .placed (hn.trans hsize) (.inr rfl) (hindex ▸ hget) rfl
  | missed _ _ => exact .ended ..
  | looked hold hget => exact (h _ _ hold).look (hindex ▸ hget)
  | flagged hold => exact (h _ _ hold).move rfl rfl
  | locked hold => exact (h _ _ hold).move rfl rfl
  | waited hold _ => exact (h _ _ hold).move rfl rfl
  | unplaced _ _ _ _ => exact .ended ..
  | dispatched hturn =>
    obtain ⟨old, hold, hheld⟩ := hturn.proc
    exact (h _ _ hold).move (Stage.slot?_of_held hheld) rfl
  | aborted _ _ => exact .ended ..
  | finished _ => exact .ended ..
  | issued hold _ => exact (h _ _ hold).move rfl rfl
  | called _ hold _ => exact (h _ _ hold).move rfl rfl

/-! ### Where inner steps lead -/

theorem Label.isInner_of_actor (h : l.actor?.isSome) : l.isInner := by
  cases l <;> first | rfl | cases h

/-- **Inner steps lead on to where all processes are over.** -/
theorem exists_over (h : Lively s) :
    ∃ labels s', (∀ l ∈ labels, l.isInner) ∧ run s labels = some s' ∧ s'.Over := by
  -- every step of a process brings the processes closer to their end
  suffices ∀ d s, State.distance s = d → Lively s →
      ∃ labels s', (∀ l ∈ labels, l.isInner) ∧ run s labels = some s' ∧ s'.Over from
    this _ s rfl h
  intro d
  induction d using WellFoundedLT.induction with
  | ind d ih =>
    rintro s rfl h
    rcases goes_or_over h with ⟨s₁, hgoes⟩ | hover
    · obtain ⟨now, l, hnow, hactor, hstep⟩ := id hgoes
      have helapse : Control.step s (.elapse now) = some { s with now } := if_pos hnow
      obtain ⟨labels, s', hinner, hrun, hover⟩ :=
        ih _ (hgoes.distance_lt h.intact) s₁ rfl ((h.step helapse).step hstep)
      refine ⟨.elapse now :: l :: labels, s', ?_, ?_, hover⟩
      · rintro l' (_ | ⟨_, _ | ⟨_, hl'⟩⟩)
        · rfl
        · exact Label.isInner_of_actor hactor
        · exact hinner l' hl'
      · rw [run_cons, helapse, Option.bind_some, run_cons, hstep, Option.bind_some, hrun]
    · exact ⟨[], s, by simp, rfl, hover⟩

end

end Control

end FleetControl
