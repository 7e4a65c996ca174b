import FleetControl.Proofs.Control.Processes
import FleetControl.Proofs.Placement.Election
import FleetControl.Proofs.Region.Operations

/-!
# Requests that can be placed

A request is looked at once, when it is accepted (`State.validate_eq_ok_iff`). What is found then
stays true: regions are only added (`Control.successor_step`), so in every state of every run the
requests of the records and of the passes under way can be placed (`Placed.run`), and no election
of a pass fails (`Placed.start_ne_failed`).
-/

namespace FleetControl

open Region (Path Tree)

namespace Placement

/-- The region of the request has a readable path and, if the request insists on it, exists. -/
def Placeable (t : Tree) (request : Request) : Prop :=
  ∃ p, Path.parse request.region = .ok p ∧ (request.strictRegion = true → (t.resolve p).isSome)

variable {t t' : Tree} {request request' : Request}

/-- Only the region counts. -/
theorem Placeable.congr (h : Placeable t request) (hregion : request'.region = request.region)
    (hstrict : request'.strictRegion = request.strictRegion) : Placeable t request' := by
  simpa only [Placeable, hregion, hstrict] using h

/-- A region that exists does not go away. -/
theorem Placeable.grows (h : Placeable t request) (hgrows : t.Grows t') : Placeable t' request := by
  obtain ⟨p, hp, hstrict⟩ := h
  refine ⟨p, hp, fun hs => ?_⟩
  obtain ⟨id, hid⟩ := Option.isSome_iff_exists.1 (hstrict hs)
  simp [hgrows.resolve hid]

/-- An election for a request that can be placed does not fail. -/
theorem Placeable.elect (h : Placeable t request) (ht : t.Sound) (known : List Node) :
    ∃ e, elect request t known = .ok e := by
  obtain ⟨p, hp, hstrict⟩ := h
  rw [elect_of_parse ht hp]
  cases hres : t.resolve p with
  | none =>
    have hlax : request.strictRegion = false := by
      by_contra hs
      simp [hres] at hstrict
      exact hs hstrict
    simp [hlax]
  | some id => exact ⟨_, rfl⟩

end Placement

open Placement (Placeable)

/-- A pass on a record whose request can be placed begins with a plan. -/
theorem Pass.start_ne_failed {f : Fleet} {d work : Deployment} {e : Region.Error}
    (ht : f.tree.Sound) (h : Placeable f.tree d.request) : Pass.start f d ≠ .failed work e := by
  intro hstart
  rw [Pass.start_eq] at hstart
  split at hstart
  · cases hstart
  · obtain ⟨election, helect⟩ := h.elect ht f.registry.list
    rw [(Pass.opened_copyOf f d).request, helect] at hstart
    cases hstart

namespace Control

/-! ### What is looked at when a request comes -/

namespace State

variable {s : State} {request : Request} {fresh : String} {e : Region.Error}

theorem validate_eq (s : State) (request : Request) :
    s.validate request = match Path.parse request.region with
      | .error e => .error e
      | .ok p =>
        if request.strictRegion && (s.tree.resolve p).isNone then .error (.notFound request.region)
        else .ok () := by
  unfold validate
  cases Path.parse request.region with
  | error e => rfl
  | ok p =>
    simp only [bind, Except.bind, throw, throwThe, MonadExceptOf.throw]
    split <;> rfl

theorem validate_eq_ok_iff : s.validate request = .ok () ↔ Placeable s.tree request := by
  rw [validate_eq, Placeable]
  cases Path.parse request.region with
  | error e => simp
  | ok p => cases hs : request.strictRegion <;> cases hres : s.tree.resolve p <;> simp [hres]

/-- A request is turned away for its region alone. -/
theorem accept_eq_error_iff :
    s.accept request fresh = .error e ↔ s.validate request = .error e := by
  unfold accept prepare
  cases hvalid : s.validate request with
  | error e' => simp [bind, Except.bind]
  | ok _ =>
    simp only [bind, Except.bind, pure, Except.pure, reduceCtorEq, iff_false]
    split <;> simp

theorem placeable_of_accept {result : State × String}
    (h : s.accept request fresh = .ok result) : Placeable s.tree request := by
  rw [← validate_eq_ok_iff]
  cases hvalid : s.validate request with
  | error e => simp [accept_eq_error_iff.2 hvalid] at h
  | ok _ => rfl

/-- A path that cannot be read is told from a region that does not exist. -/
theorem validate_eq_invalidPath_iff :
    (∃ text fault, s.validate request = .error (.invalidPath text fault)) ↔
      ∀ p, Path.parse request.region ≠ .ok p := by
  rw [validate_eq]
  cases hp : Path.parse request.region with
  | error e =>
    obtain ⟨fault, rfl⟩ := Path.parse_error hp
    simp
  | ok p =>
    dsimp only
    split <;> simp

theorem validate_eq_notFound_iff :
    (∃ text, s.validate request = .error (.notFound text)) ↔ ∃ p,
      Path.parse request.region = .ok p ∧ request.strictRegion = true ∧
        s.tree.resolve p = none := by
  rw [validate_eq]
  cases hp : Path.parse request.region with
  | error e =>
    obtain ⟨fault, rfl⟩ := Path.parse_error hp
    simp
  | ok p => cases hs : request.strictRegion <;> cases hres : s.tree.resolve p <;> simp [hres]

end State

/-! ### The regions of a run -/

section

variable {s s' s₁ : State} {l : Label} {p : ProcId} {errand : Errand} {i : SlotId}
  {progress : Progress}

/-- A change of the world is an operation on the tree or leaves it alone. -/
theorem tree_apply (s : State) (c : Change) : ∃ ops, (c.apply s).tree = s.tree.performAll ops := by
  cases c with
  | declare d =>
    refine ⟨[.apply [d]], ?_⟩
    simp only [Change.apply, Tree.performAll, List.foldl_cons, List.foldl_nil, Tree.perform,
      Tree.apply]
    cases s.tree.declare d <;> rfl
  | createRegion path =>
    refine ⟨[.create path], ?_⟩
    simp only [Change.apply, Tree.performAll, List.foldl_cons, List.foldl_nil, Tree.perform]
    cases s.tree.createText path <;> rfl
  | configure region settings =>
    refine ⟨[.configure region fun _ => settings], ?_⟩
    simp only [Change.apply, Tree.performAll, List.foldl_cons, List.foldl_nil, Tree.perform]
    cases s.tree.updateSettings region fun _ => settings <;> rfl
  | _ => exact ⟨[], rfl⟩

theorem tree_step (hstep : step s l = some s') : ∃ ops, s'.tree = s.tree.performAll ops := by
  rcases sameWorld_step hstep with hsame | ⟨c, -, rfl⟩
  · exact ⟨[], hsame.tree⟩
  · exact tree_apply s c

/-- Regions are only added. -/
theorem successor_step (ht : s.tree.Sound) (hstep : step s l = some s') :
    s.tree.Successor s'.tree := by
  obtain ⟨ops, hops⟩ := tree_step hstep
  rw [hops]
  exact ht.successor_performAll ops

/-! ### The requests of a run -/

/-- The tree is sound, and the requests of the records and of the passes under way can be placed. -/
structure Placed (s : State) : Prop where
  tree : s.tree.Sound
  requests : Tracks (fun _ d => Placeable s.tree d.request)
    (fun _ _ _ p₀ => Placeable s.tree p₀.work.request) s

theorem State.Fresh.placed (h : s.Fresh) (ht : s.tree.Sound) : Placed s := ⟨ht, h.tracks _ _⟩

/-- What a configuration sets up. -/
theorem ofConfig_eq_ok {c : Config} {entropy : UInt64} {wall : Nat} :
    State.ofConfig c entropy wall = .ok s ↔ ∃ t, c.regionTree = .ok t ∧ s = {
      tree := t, registry := .ofNodes c.boundNodes, selector := c.placement.selector entropy,
      settings := c.engine, wall } := by
  unfold State.ofConfig
  cases c.regionTree with
  | error e => simp [bind, Except.bind]
  | ok t => simp [bind, Except.bind, pure, Except.pure, eq_comm]

/-- The control plane that a configuration sets up has a sound tree. -/
theorem sound_ofConfig {c : Config} {entropy : UInt64} {wall : Nat}
    (h : State.ofConfig c entropy wall = .ok s) : s.Fresh ∧ s.tree.Sound := by
  obtain ⟨t, htree, rfl⟩ := ofConfig_eq_ok.1 h
  refine ⟨⟨rfl, rfl, rfl⟩, ?_⟩
  unfold Config.regionTree Tree.ofDeclarations at htree
  have hsound := (Tree.sound_new.successor_apply c.regions).sound
  split at htree
  · next heq =>
    cases htree
    rwa [heq] at hsound
  · cases htree

/-- The record that takes back a pass has the request of either. -/
theorem placeable_absorb {t : Tree} {d work : Deployment} (hd : Placeable t d.request)
    (hwork : Placeable t work.request) : Placeable t (d.absorb work).request := by
  unfold Deployment.absorb
  split
  · exact hwork
  · exact hd

theorem placeable_begun {t : Tree} {d : Deployment} (h : Placeable t d.request) :
    Placeable t d.begun.request := by
  obtain ⟨state, heq⟩ := d.begun_eq
  rwa [heq]

theorem upkeep_placeable (ht : s.tree.Sound) (hstep : step s l = some s') :
    Upkeep s l (fun _ d => Placeable s.tree d.request) (fun _ d => Placeable s'.tree d.request)
      (fun _ _ _ p₀ => Placeable s.tree p₀.work.request)
      (fun _ _ _ p₀ => Placeable s'.tree p₀.work.request) := by
  have hgrows := (successor_step ht hstep).grows
  constructor
  case record_mono => exact fun hd => hd.grows hgrows
  case pass_mono => exact fun hp => hp.grows hgrows
  case founded =>
    intro request fresh _ haccept
    exact ((State.placeable_of_accept haccept).congr rfl rfl).grows hgrows
  case revised =>
    intro request fresh id i d _ haccept _ _
    exact ((State.placeable_of_accept haccept).congr rfl rfl).grows hgrows
  case begun => exact fun hd => (placeable_begun hd).grows hgrows
  case unplaced =>
    intro i d work e hd hstart
    have hbegun := (placeable_begun hd).grows hgrows
    exact placeable_absorb hbegun ((Pass.start_failed hstart).1.request ▸ hbegun)
  case opened =>
    intro p errand i sl pass selector _ _ _ _ hd hstart
    rw [(Pass.start_planned hstart).1.request]
    exact (placeable_begun hd).grows hgrows
  case drained => exact fun _ _ _ hd => hd.grows hgrows
  case finished =>
    intro p errand i p₀ q outs f work report d _ hb hcourse _ hend hd
    refine placeable_absorb hd ?_
    rwa [(Pass.finished_eq hend).1.request, hcourse.copyOf.request]

theorem Placed.step (h : Placed s) (hstep : Control.step s l = some s') : Placed s' :=
  ⟨(successor_step h.tree hstep).sound, h.requests.step (upkeep_placeable h.tree hstep) hstep⟩

/-- **Requests stay placeable** in every state of every run. -/
theorem Placed.run (h : Placed s) {labels : List Label} (hrun : Control.run s labels = some s') :
    Placed s' :=
  run_induction (P := fun _ s' => Placed s') h (fun _ _ _ _ _ hs hstep => hs.step hstep) hrun

/-- No pass fails where it begins. -/
theorem Placed.start_ne_failed (h : Placed s) {sl : Slot} (hslot : s.slots[i]? = some sl)
    (work : Deployment) (e : Region.Error) : Pass.start s.fleet sl.record.begun ≠ .failed work e :=
  Pass.start_ne_failed h.tree
    (placeable_begun (h.requests.record (State.recordAt_of_slot hslot)))

end

end Control

end FleetControl
