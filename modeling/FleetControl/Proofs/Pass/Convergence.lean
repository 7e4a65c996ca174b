import FleetControl.Proofs.Pass.Success
import Mathlib.Algebra.Order.BigOperators.Group.List
import Mathlib.Algebra.Order.Floor.Div
import Mathlib.Data.ENat.Lattice

/-!
# Repeated passes converge

Passes without trouble follow each other on a record, on fleets with the same regions, nodes and cap
(`Fleet.Steady`); the clock, the ranking of nodes and the choice of victims may differ from pass to
pass. `Pass.Passes limit timeout f d n d'` says that `n` passes have returned and brought the record
`d` to `d'`.

The cap leaves the elected nodes `Deployment.room` for more matched instances, which is without
bound where there is no cap. What a pass creates it takes from the room (`Pass.room_add_length`),
and it creates something as long as there is room and something is missing. Hence after as many
passes as instances were missing, and one at least, all of them are there or the room is used up.
What is beyond the scale goes in one pass, as far as one selection takes it
(`Deployment.passesFor`).

## Main results

* `Pass.Advanced.ensures`, `Pass.Passes.advanced` : what one more pass keeps, and hence what holds
  after any number of them (`Pass.Advanced`);
* `Pass.passes_converge` : where permits can be counted every call returns; how many instances match
  in the end, what the state is, and that later passes leave the instances (`Pass.Settled`); and
  where there is no cap, which pass is the first that calls the record converged;
* `Pass.passes_abandoned` : with more permits than can be counted not even one pass returns.
-/

namespace FleetControl

/-- Two fleets with the same regions, nodes and cap. -/
structure Fleet.Steady (f g : Fleet) : Prop where
  tree : g.tree = f.tree
  registry : g.registry = f.registry
  cap : g.selector.maxInstancesPerNode = f.selector.maxInstancesPerNode

theorem Fleet.Steady.refl (f : Fleet) : f.Steady f := ⟨rfl, rfl, rfl⟩

/-! ### Room on the elected nodes -/

namespace Deployment

/-- How many more matched instances the cap admits on the elected nodes. -/
def room (d : Deployment) (cap : Option UInt32) (elected : List Node) : ℕ∞ :=
  match cap with
  | none => if elected.isEmpty then 0 else ⊤
  | some most => ((elected.map fun node => most.toNat - d.matchedOn node).sum : Nat)

/-- How many passes bring a record to its scale if each creates `step` instances as long as some are
missing: one at least, and one for each selection of victims among those beyond the scale. -/
def passesFor (d : Deployment) (step : Nat) : Nat :=
  max 1 (max ((d.scale - d.matched.length) ⌈/⌉ step)
    ((d.matched.length - d.scale) ⌈/⌉ Placement.maxDemand))

theorem passesFor_le_iff {d : Deployment} {step n : Nat} (hstep : 0 < step) :
    d.passesFor step ≤ n ↔ 1 ≤ n ∧ d.scale ≤ d.matched.length + n * step ∧
      d.matched.length ≤ d.scale + n * Placement.maxDemand := by
  have hdemand : 0 < Placement.maxDemand := by decide
  simp only [passesFor, max_le_iff, ceilDiv_le_iff_le_mul hstep, ceilDiv_le_iff_le_mul hdemand,
    tsub_le_iff_left, Nat.mul_comm _ n]

/-- One selection takes all that is beyond the scale, unless it is more than can be counted. -/
theorem passesFor_eq {d : Deployment} (hmax : d.matched.length ≤ d.scale + Placement.maxDemand)
    (step : Nat) : d.passesFor step = max 1 ((d.scale - d.matched.length) ⌈/⌉ step) := by
  have hone : (d.matched.length - d.scale) ⌈/⌉ Placement.maxDemand ≤ 1 := by
    rw [ceilDiv_le_iff_le_mul (show 0 < Placement.maxDemand by decide)]
    omega
  rw [passesFor]
  omega

end Deployment

namespace Pass

open Placement (Selector)

variable {limit timeout : Nat} {d d' : Deployment}

theorem hasRoom_iff {s : Selector} {node : Node} :
    s.hasRoom (loadByNode d.matched) node ↔
      ∀ most ∈ s.maxInstancesPerNode, d.matchedOn node < most.toNat :=
  Selector.hasRoom_iff

/-- There is no candidate exactly if there is no room. -/
theorem candidates_eq_nil_iff {s : Selector} {elected : List Node} :
    s.candidates elected d.matched = [] ↔ d.room s.maxInstancesPerNode elected = 0 := by
  simp only [Selector.candidates, List.filter_eq_nil_iff, hasRoom_iff, Deployment.room]
  cases s.maxInstancesPerNode with
  | none =>
    cases elected with
    | nil => simp
    | cons node rest => simpa using ⟨node, fun h => absurd rfl h⟩
  | some most =>
    simp only [Option.mem_def, Option.some.injEq, forall_eq', Nat.not_lt, Nat.cast_eq_zero,
      List.sum_eq_zero_iff, List.mem_map, forall_exists_index, and_imp, forall_apply_eq_imp_iff₂,
      Nat.sub_eq_zero_iff_le]

theorem candidates_of_uncapped {s : Selector} (hcap : s.maxInstancesPerNode = none)
    (elected : List Node) (current : List Instance) : s.candidates elected current = elected := by
  refine List.filter_eq_self.2 fun node _ => ?_
  rw [Selector.hasRoom, hcap]

/-- Under a cap, new instances take up as much room as they are. -/
theorem sum_add_length {most : Nat} {elected targets : List Node}
    (hnodup : (elected.map (·.id)).Nodup) (hsub : targets.Subperm elected)
    (hless : ∀ node ∈ targets, d.matchedOn node < most)
    (hgrown : ∀ node, d'.matchedOn node = d.matchedOn node + targets.countP (·.id == node.id)) :
    targets.length + (elected.map fun node => most - d'.matchedOn node).sum =
      (elected.map fun node => most - d.matchedOn node).sum := by
  -- the elected nodes are the targets and the rest
  obtain ⟨l, hl, hsubl⟩ := hsub
  obtain ⟨rest, hrest⟩ := hsubl.exists_perm_append
  have hperm : elected.Perm (targets ++ rest) := hrest.trans (hl.append_right rest)
  have hdistinct := (hperm.map (·.id)).nodup_iff.1 hnodup
  rw [List.map_append, List.nodup_append] at hdistinct
  obtain ⟨htargets, -, hdisjoint⟩ := hdistinct
  have hcount : ∀ node : Node, targets.countP (·.id == node.id) =
      (targets.map (·.id)).count node.id := by
    intro node
    rw [List.count, List.countP_map]
    rfl
  have hon : targets.map (fun node => most - d.matchedOn node) =
      targets.map (fun node => (most - d'.matchedOn node) + 1) := by
    refine List.map_congr_left fun node hnode => ?_
    have hlt := hless node hnode
    rw [hgrown, hcount, List.count_eq_one_of_mem htargets (List.mem_map_of_mem hnode)]
    omega
  have hoff : rest.map (fun node => most - d.matchedOn node) =
      rest.map (fun node => most - d'.matchedOn node) := by
    refine List.map_congr_left fun node hnode => ?_
    rw [hgrown, hcount, List.count_eq_zero_of_not_mem fun hmem =>
      hdisjoint _ hmem _ (List.mem_map_of_mem hnode) rfl, Nat.add_zero]
  rw [(hperm.map _).sum_eq, (hperm.map fun node => most - d.matchedOn node).sum_eq,
    List.map_append, List.map_append, List.sum_append, List.sum_append, hon, hoff,
    List.sum_map_add, List.map_const', List.sum_replicate, smul_eq_mul, Nat.mul_one]
  omega

/-- **New instances take up as much room as they are.** -/
theorem room_add_length {s : Selector} {elected targets : List Node}
    (hnodup : (elected.map (·.id)).Nodup)
    (hsub : targets.Subperm (s.candidates elected d.matched))
    (hgrown : ∀ node, d'.matchedOn node = d.matchedOn node + targets.countP (·.id == node.id)) :
    targets.length + d'.room s.maxInstancesPerNode elected =
      d.room s.maxInstancesPerNode elected := by
  have hless : ∀ node ∈ targets, ∀ most ∈ s.maxInstancesPerNode,
      d.matchedOn node < most.toNat := fun node hnode =>
    hasRoom_iff.1 (List.mem_filter.1 (hsub.subset hnode)).2
  have hsub' : targets.Subperm elected := hsub.trans List.filter_sublist.subperm
  cases hcap : s.maxInstancesPerNode with
  | none =>
    cases elected with
    | nil => simp [List.subperm_nil.1 hsub', Deployment.room]
    | cons node rest => simp [Deployment.room]
  | some most =>
    have hsum := sum_add_length hnodup hsub' (fun node hnode => hless node hnode most hcap) hgrown
    rw [Deployment.room, Deployment.room]
    exact_mod_cast hsum

/-! ### Runs of passes -/

/-- So many passes have returned, and have brought the record `d` to another. -/
inductive Passes (limit timeout : Nat) (f : Fleet) (d : Deployment) : Nat → Deployment → Prop
  | begun : Passes limit timeout f d 0 d
  | again {n : Nat} {g : Fleet} {d' d'' : Deployment} :
      Passes limit timeout f d n d' → f.Steady g → Ensures limit timeout g d' (some d'') →
      Passes limit timeout f d (n + 1) d''

/-- What a number of passes have made of the record `d`. -/
structure Advanced (f : Fleet) (elected : List Node) (d : Deployment) (n : Nat)
    (d' : Deployment) : Prop where
  copyOf : d'.CopyOf d
  placed : WellPlaced f.registry d'
  /-- What was created was missing, and there was room for it. -/
  grown : d.matched.length ≤ d.scale → d.matched.length ≤ d'.matched.length ∧
    d'.matched.length ≤ d.scale ∧
    d'.matched.length ≤ d.matched.length + d.room f.selector.maxInstancesPerNode elected
  /-- What was created took up room. -/
  room : d'.matched.length < d.scale →
    d'.matched.length + d'.room f.selector.maxInstancesPerNode elected =
      d.matched.length + d.room f.selector.maxInstancesPerNode elected
  /-- Each pass creates something while there is room and something is missing. -/
  busy : d'.matched.length < d.scale → d'.matched.length < d.matched.length + n →
    d'.room f.selector.maxInstancesPerNode elected = 0
  /-- Without a cap each pass creates one instance on every elected node. -/
  uncapped : f.selector.maxInstancesPerNode = none → d.matched.length ≤ d.scale →
    d'.matched.length = min d.scale (d.matched.length + n * elected.length)
  removed : d.scale ≤ d.matched.length → d'.matched.length =
    d.matched.length - min (d.matched.length - d.scale) (n * Placement.maxDemand)
  stale : 0 < n → d'.stale.length ≤ d.scale - d'.matched.length
  state : 0 < n → (d'.state = .converged ↔ d'.matched.length = d.scale ∧ d'.stale = [])

section

variable {f : Fleet} {elected : List Node} {n : Nat}

theorem WellPlaced.advanced (hd : WellPlaced f.registry d) : Advanced f elected d 0 d where
  copyOf := .refl d
  placed := hd
  grown := fun hle => ⟨Nat.le_refl _, hle, le_self_add⟩
  room := fun _ => rfl
  busy := fun _ hlt => absurd hlt (Nat.lt_irrefl _)
  uncapped := fun _ hle => by omega
  removed := fun _ => by omega
  stale := fun hlt => absurd hlt (Nat.lt_irrefl _)
  state := fun hlt => absurd hlt (Nat.lt_irrefl _)

/-- What a pass creates while something is missing. -/
theorem Achieved.grown {election : Placement.Election}
    (helect : Placement.elect d.request f.tree f.registry.list = .ok election)
    (h : Achieved f d d') (hlt : d.matched.length < d.scale) :
    ∃ new, new = min (d.scale - d.matched.length)
        (f.selector.candidates election.nodes d.matched).length ∧
      d'.matched.length = d.matched.length + new ∧
      new + d'.room f.selector.maxInstancesPerNode election.nodes =
        d.room f.selector.maxInstancesPerNode election.nodes := by
  obtain ⟨election', targets, helect', hsub, hlength, hmatched, hon⟩ := h.created hlt
  rw [helect, Except.ok.injEq] at helect'
  subst helect'
  exact ⟨targets.length, hlength, hmatched,
    room_add_length (Placement.nodup_elected helect) hsub hon⟩

/-- What is missing now was missing at first. -/
theorem Advanced.missing (h : Advanced f elected d n d') (hlt : d'.matched.length < d.scale) :
    d.matched.length < d.scale := by
  have hremoved := h.removed
  omega

/-- Every election that a later pass holds has the same outcome. -/
theorem Advanced.elect {election : Placement.Election}
    (helect : d.matched.length < d.scale →
      Placement.elect d.request f.tree f.registry.list = .ok election)
    (h : Advanced f elected d n d') {g : Fleet} (hg : f.Steady g)
    (hlt : d'.matched.length < d'.scale) :
    Placement.elect d'.request g.tree g.registry.list = .ok election := by
  rw [h.copyOf.scale] at hlt
  rw [h.copyOf.request, hg.tree, hg.registry]
  exact helect (h.missing hlt)

theorem Advanced.achieved (hf : f.registry.Keyed) (h : Advanced f elected d n d') {g : Fleet}
    (hg : f.Steady g) {d'' : Deployment} (hpass : Ensures limit timeout g d' (some d'')) :
    Achieved g d' d'' :=
  hpass.succeeds.achieved (hg.registry.symm ▸ hf) (hg.registry.symm ▸ h.placed)

/-- **One more pass.** -/
theorem Advanced.ensures {election : Placement.Election} (hf : f.registry.Keyed)
    (helect : d.matched.length < d.scale →
      Placement.elect d.request f.tree f.registry.list = .ok election)
    (h : Advanced f election.nodes d n d') {g : Fleet} (hg : f.Steady g) {d'' : Deployment}
    (hpass : Ensures limit timeout g d' (some d'')) : Advanced f election.nodes d (n + 1) d'' := by
  have hscale := h.copyOf.scale
  have hpassed := h.achieved hf hg hpass
  have hcopy : d''.CopyOf d := hpassed.copyOf.trans h.copyOf
  have hplaced : WellPlaced f.registry d'' := hg.registry ▸ hpassed.placed
  have hstale : d''.stale.length ≤ d.scale - d''.matched.length := by
    rw [hpassed.stale, hscale]
    exact Nat.min_le_right ..
  have hstate := hpassed.state
  rw [hscale] at hstate
  have hremoved := h.removed
  have hgrown := h.grown
  rcases Nat.lt_or_ge d'.matched.length d.scale with hlt | hge
  · -- instances are missing, and were missing before
    have hlt₀ := h.missing hlt
    obtain ⟨new, hnew, hmatched, hroom⟩ :=
      hpassed.grown (h.elect helect hg (hscale ▸ hlt)) (hscale ▸ hlt)
    rw [hg.cap] at hroom
    have hused : d''.matched.length + d''.room f.selector.maxInstancesPerNode election.nodes =
        d.matched.length + d.room f.selector.maxInstancesPerNode election.nodes := by
      rw [← h.room hlt, ← hroom, hmatched, Nat.cast_add, add_assoc]
    refine ⟨hcopy, hplaced, fun _ => ⟨by omega, by omega, ?_⟩, fun _ => hused, ?_, ?_, by omega,
      fun _ => hstale, fun _ => hstate⟩
    · exact le_self_add.trans_eq hused
    · intro hless hbusy
      by_cases hnone : g.selector.candidates election.nodes d'.matched = []
      · -- no candidate was left, and none is
        have hzero := candidates_eq_nil_iff.1 hnone
        rw [hg.cap] at hzero
        rw [hzero, add_eq_zero] at hroom
        exact hroom.2
      · -- a candidate was left, so the room had not been used up, yet the last pass was idle
        have hpos := List.length_pos_iff.2 hnone
        have hzero := h.busy hlt (by omega)
        rw [← hg.cap] at hzero
        exact absurd (candidates_eq_nil_iff.2 hzero) hnone
    · intro huncapped hle
      have hall := h.uncapped huncapped hle
      rw [candidates_of_uncapped (hg.cap.trans huncapped)] at hnew
      rw [Nat.succ_mul]
      omega
  · -- nothing is missing, so no election is held and nothing is created
    have hfewer := hpassed.removed (hscale ▸ hge)
    rw [hscale] at hfewer
    refine ⟨hcopy, hplaced, fun hle => ?_, by omega, by omega, fun huncapped hle => ?_, ?_,
      fun _ => hstale, fun _ => hstate⟩
    · have hsame : d''.matched.length = d'.matched.length := by omega
      rw [hsame]
      exact hgrown hle
    · have hall := h.uncapped huncapped hle
      rw [Nat.succ_mul]
      omega
    · rw [Nat.succ_mul]
      omega

theorem Passes.advanced {election : Placement.Election} (hf : f.registry.Keyed)
    (hd : WellPlaced f.registry d)
    (helect : d.matched.length < d.scale →
      Placement.elect d.request f.tree f.registry.list = .ok election)
    (h : Passes limit timeout f d n d') : Advanced f election.nodes d n d' := by
  induction h with
  | begun => exact hd.advanced
  | again _ hg hpass ih => exact ih.ensures hf helect hg hpass

/-- A pass on a record that needs no more, or has no room for it, leaves the instances. -/
theorem Achieved.settled {election : Placement.Election}
    (helect : d.matched.length < d.scale →
      Placement.elect d.request f.tree f.registry.list = .ok election)
    (h : Achieved f d d') (hle : d.matched.length ≤ d.scale)
    (hroom : d.matched.length < d.scale →
      d.room f.selector.maxInstancesPerNode election.nodes = 0)
    (hstale : d.stale.length ≤ d.scale - d.matched.length) : d'.instances = d.instances := by
  refine h.kept ?_ hstale
  rcases Nat.lt_or_ge d.matched.length d.scale with hlt | hge
  · obtain ⟨new, hnew, hmatched, -⟩ := h.grown (helect hlt) hlt
    rw [candidates_eq_nil_iff.2 (hroom hlt), List.length_nil] at hnew
    omega
  · have hfewer := h.removed hge
    omega

theorem Passes.trans {m : Nat} {d'' : Deployment} (h : Passes limit timeout f d n d')
    (h' : Passes limit timeout f d' m d'') : Passes limit timeout f d (n + m) d'' := by
  induction h' with
  | begun => exact h
  | again _ hg hpass ih => exact ih.again hg hpass

/-- After enough passes no more than the scale is there, and less only if no room is left. -/
theorem Advanced.enough (h : Advanced f elected d n d') (hn : d.passesFor 1 ≤ n) :
    d'.matched.length ≤ d.scale ∧ (d'.matched.length < d.scale →
      d'.room f.selector.maxInstancesPerNode elected = 0) := by
  obtain ⟨-, hmissing, hmax⟩ := (Deployment.passesFor_le_iff Nat.one_pos).1 hn
  have hremoved := h.removed
  have hgrown := h.grown
  exact ⟨by omega, fun hlt => h.busy hlt (by omega)⟩

/-- No stale instance is kept beside a full number of matched ones. -/
theorem Advanced.converged_iff (h : Advanced f elected d n d') (hn : 1 ≤ n) :
    (d'.state = .converged ↔ d'.matched.length = d.scale) ∧
      (d'.state = .converged → d'.stale = []) := by
  have hstate := h.state hn
  have hstale := h.stale hn
  have hnone : d'.matched.length = d.scale → d'.stale = [] := fun hall =>
    List.length_eq_zero_iff.1 (by omega)
  rw [hstate]
  exact ⟨and_iff_left_iff_imp.2 hnone, And.right⟩

/-- Where passes on the record `d` lead, with the room for what is missing on the elected nodes. -/
structure Settled (limit timeout : Nat) (f : Fleet) (elected : List Node) (d d' : Deployment) :
    Prop where
  matched : d'.matched.length = if d.scale ≤ d.matched.length then (d.scale : ℕ∞) else
    min (d.scale : ℕ∞) (d.matched.length + d.room f.selector.maxInstancesPerNode elected)
  state : d'.state = .converged ↔ d.scale ≤ d.matched.length ∨
    (d.scale - d.matched.length : Nat) ≤ d.room f.selector.maxInstancesPerNode elected
  stale : d'.state = .converged → d'.stale = []
  /-- Later passes leave the instances as they are. -/
  stable : ∀ {m d''}, Passes limit timeout f d' m d'' → d''.instances = d'.instances

section

variable {election : Placement.Election} (hf : f.registry.Keyed) (hd : WellPlaced f.registry d)
  (helect : d.matched.length < d.scale →
    Placement.elect d.request f.tree f.registry.list = .ok election)

include hf hd helect

/-- After enough passes nothing is created or removed any more. -/
theorem Passes.stable (h : Passes limit timeout f d n d')
    (hn : d.passesFor 1 ≤ n) {m : Nat} {d'' : Deployment}
    (h' : Passes limit timeout f d' m d'') : d''.instances = d'.instances := by
  have hone : 1 ≤ n := ((Deployment.passesFor_le_iff Nat.one_pos).1 hn).1
  induction h' with
  | begun => rfl
  | @again m g e e' hbefore hg hpass ih =>
    rw [← ih]
    have hadvanced := (h.trans hbefore).advanced hf hd helect
    obtain ⟨hle, hzero⟩ := hadvanced.enough (hn.trans (Nat.le_add_right ..))
    have hstale := hadvanced.stale (by omega)
    rw [← hadvanced.copyOf.scale] at hle hzero hstale
    rw [← hg.cap] at hzero
    exact (hadvanced.achieved hf hg hpass).settled (hadvanced.elect helect hg) hle hzero hstale

theorem Passes.settled (h : Passes limit timeout f d n d')
    (hn : d.passesFor 1 ≤ n) : Settled limit timeout f election.nodes d d' := by
  obtain ⟨hone, -, hmax⟩ := (Deployment.passesFor_le_iff Nat.one_pos).1 hn
  have hadvanced := h.advanced hf hd helect
  obtain ⟨hle, hzero⟩ := hadvanced.enough hn
  obtain ⟨hstate, hclean⟩ := hadvanced.converged_iff hone
  -- what is missing in the end had no room
  have hused : d'.matched.length < d.scale → (d'.matched.length : ℕ∞) =
      d.matched.length + d.room f.selector.maxInstancesPerNode election.nodes := fun hless => by
    rw [← hadvanced.room hless, hzero hless, add_zero]
  have hroom : ((d.scale - d.matched.length : Nat) : ℕ∞) ≤
      d.room f.selector.maxInstancesPerNode election.nodes ↔
      (d.scale : ℕ∞) ≤ d.matched.length + d.room f.selector.maxInstancesPerNode election.nodes := by
    rw [ENat.natCast_sub, tsub_le_iff_left]
  refine ⟨?_, ?_, hclean, h.stable hf hd helect hn⟩
  · split
    · next hge =>
      have hremoved := hadvanced.removed hge
      exact congrArg Nat.cast (show d'.matched.length = d.scale by omega)
    · next hlt =>
      obtain ⟨-, -, hbound⟩ := hadvanced.grown (by omega)
      rcases Nat.lt_or_ge d'.matched.length d.scale with hless | hall
      · rw [← hused hless, min_eq_right (Nat.cast_le.2 hle)]
      · rw [show d'.matched.length = d.scale by omega] at hbound ⊢
        rw [min_eq_left hbound]
  · rw [hstate, hroom]
    constructor
    · intro hall
      rcases Nat.lt_or_ge d.matched.length d.scale with hlt | hge
      · exact .inr (hall ▸ (hadvanced.grown (Nat.le_of_lt hlt)).2.2)
      · exact .inl hge
    · rintro (hge | hbound)
      · have hremoved := hadvanced.removed hge
        omega
      · refine Nat.le_antisymm hle (Nat.not_lt.1 fun hless => ?_)
        rw [← hused hless, Nat.cast_le] at hbound
        omega

/-- Without a cap the passes that it takes are known exactly. -/
theorem Passes.converged_iff (h : Passes limit timeout f d n d') (hn : 1 ≤ n)
    (hcap : f.selector.maxInstancesPerNode = none) (hnodes : election.nodes ≠ []) :
    d'.state = .converged ↔ d.passesFor election.nodes.length ≤ n := by
  have hadvanced := h.advanced hf hd helect
  rw [(hadvanced.converged_iff hn).1, Deployment.passesFor_le_iff (List.length_pos_iff.2 hnodes),
    and_iff_right hn]
  rcases Nat.le_total d.matched.length d.scale with hle | hge
  · have hall := hadvanced.uncapped hcap hle
    omega
  · have hremoved := hadvanced.removed hge
    omega

end

end

/-! ### Passes that do not return -/

/-- A pass that finds room for an instance that is missing plans to create one. -/
theorem plan_ne_nil {f : Fleet} {p : Pass} {selector : Selector}
    (hd : ∀ i ∈ d.instances, f.registry.Knows i.nodeId) (hstart : start f d = .planned p selector)
    (hlt : d.matched.length < d.scale) {election : Placement.Election}
    (helect : Placement.elect d.request f.tree f.registry.list = .ok election)
    (hroom : d.room f.selector.maxInstancesPerNode election.nodes ≠ 0) : p.plan ≠ [] := by
  obtain ⟨-, -, -, hplan, -⟩ := start_planned hstart
  have hkept := dropLost_eq hd
  cases hplan with
  | remove victims hle =>
    rw [hkept] at hle
    omega
  | create election' targets _ helect' htargets hplan _ =>
    obtain rfl := Except.ok.inj (helect.symm.trans helect')
    have hcandidates : 0 < (f.selector.candidates election.nodes d.matched).length :=
      List.length_pos_iff.2 (mt candidates_eq_nil_iff.1 hroom)
    have hlength : targets.length = min (d.scale - d.matched.length)
        (f.selector.candidates election.nodes d.matched).length := by
      rw [htargets, hkept]
      exact Selector.length_selectTargets ..
    obtain ⟨node, rest, hfirst⟩ := List.exists_cons_of_length_pos (show 0 < targets.length by omega)
    rw [hplan, hfirst]
    simp [creations]

/-- **With more permits than can be counted no pass returns** that finds room for an instance that is
missing. -/
theorem Passes.eq_zero (hlimit : Batch.maxPermits < limit) {f : Fleet}
    (hd : ∀ i ∈ d.instances, f.registry.Knows i.nodeId) (hlt : d.matched.length < d.scale)
    {election : Placement.Election}
    (helect : Placement.elect d.request f.tree f.registry.list = .ok election)
    (hroom : d.room f.selector.maxInstancesPerNode election.nodes ≠ 0) {n : Nat}
    (h : Passes limit timeout f d n d') : n = 0 ∧ d' = d := by
  induction h with
  | begun => exact ⟨rfl, rfl⟩
  | @again n g d' d'' _ hg hpass ih =>
    obtain ⟨-, rfl⟩ := ih
    rw [← hg.registry] at hd
    rw [← hg.tree, ← hg.registry] at helect
    rw [← hg.cap] at hroom
    obtain ⟨p, selector, hstart⟩ := exists_planned hd fun _ => helect
    have hnone := hpass.eq_none hlimit hstart (plan_ne_nil hd hstart hlt helect hroom)
    simp at hnone

/-! ### Convergence -/

/-- **Repeated passes converge, and to the right count.** Let permits be countable. On a well placed
record whose election, if one is needed, succeeds, every number of passes can be made, and whatever
passes have been made, the next call returns and is not aborted. After as many passes as matched
instances are missing, and one at least, the record is settled. Without a cap the `n`-th pass calls
the record converged if and only if `n` passes can create what is missing, one instance on each
elected node at a time.

One selection considers at most `Placement.maxDemand` victims, so a record with more than
`2 ^ 32 - 1` instances beyond the scale takes a pass for each such number of them; this is the last
part of `Deployment.passesFor`, and no other record needs it. -/
theorem passes_converge {limit : Nat} (hlimit : limit ≤ Batch.maxPermits) (timeout : Nat)
    {f : Fleet} (hf : f.registry.Keyed) {d : Deployment} (hd : WellPlaced f.registry d)
    {election : Placement.Election} (helect : d.matched.length < d.scale →
      Placement.elect d.request f.tree f.registry.list = .ok election) :
    (∀ n, ∃ d', Passes limit timeout f d n d') ∧
    (∀ n d', Passes limit timeout f d n d' →
      (∀ g, f.Steady g → (∃ d'', Ensures limit timeout g d' (some d'')) ∧
        ¬ Ensures limit timeout g d' none) ∧
      (d.passesFor 1 ≤ n → Settled limit timeout f election.nodes d d') ∧
      (f.selector.maxInstancesPerNode = none → election.nodes ≠ [] → 1 ≤ n →
        (d'.state = .converged ↔ d.passesFor election.nodes.length ≤ n))) ∧
    (d.matched.length ≤ d.scale + Placement.maxDemand →
      d.passesFor 1 = max 1 (d.scale - d.matched.length) ∧
      d.passesFor election.nodes.length =
        max 1 ((d.scale - d.matched.length) ⌈/⌉ election.nodes.length)) := by
  have hreturns : ∀ n d', Passes limit timeout f d n d' →
      ∀ g, f.Steady g → ∃ d'', Ensures limit timeout g d' (some d'') := by
    intro n d' h g hg
    have hadvanced := h.advanced hf hd helect
    exact exists_ensures hlimit timeout (hg.registry.symm ▸ hadvanced.placed)
      (hadvanced.elect helect hg)
  refine ⟨fun n => ?_, fun n d' h => ⟨fun g hg => ?_, ?_, ?_⟩, fun hmax => ?_⟩
  · induction n with
    | zero => exact ⟨d, .begun⟩
    | succ n ih =>
      obtain ⟨d', h⟩ := ih
      obtain ⟨d'', hpass⟩ := hreturns n d' h f (.refl f)
      exact ⟨d'', h.again (.refl f) hpass⟩
  · exact ⟨hreturns n d' h g hg, fun habort => habort.ne_none hlimit rfl⟩
  · exact fun hn => h.settled hf hd helect hn
  · exact fun hcap hnodes hn => h.converged_iff hf hd helect hn hcap hnodes
  · have hone := Deployment.passesFor_eq hmax 1
    rw [ceilDiv_one] at hone
    exact ⟨hone, Deployment.passesFor_eq hmax election.nodes.length⟩

/-- A fleet of two nodes. -/
def pair : Fleet where
  tree := ⟨[{ name := "" }]⟩
  registry := .ofNodes [{ id := "a" }, { id := "b" }]
  selector := {}
  wall := 0

/-- A record with one stale instance where three others are wanted. -/
def growing : Deployment where
  id := "web"
  request := { container := { image := "web:2" }, scale := 3 }
  specFingerprint := "new"
  instances := [⟨"web-1", "a", "h1", "old", 0, 1⟩]
  createdAt := 0
  nextSeq := 2
  errorLogCapacity := 1

theorem wellPlaced_growing : WellPlaced pair.registry growing := by
  refine ⟨⟨by decide, fun i hi seq hle => ?_⟩, fun i hi => ?_⟩
  · rw [List.mem_singleton.1 hi]
    have hlt : 2 ≤ seq := hle
    exact growing.instanceId_injective.ne (show 1 ≠ seq by omega)
  · rw [List.mem_singleton.1 hi]
    show (pair.registry.lookup "a").isSome
    decide +kernel

theorem exists_elected_growing : ∃ election,
    Placement.elect growing.request pair.tree pair.registry.list = .ok election ∧
      election.nodes.length = 2 := by
  have helect : (Placement.elect growing.request pair.tree pair.registry.list).toOption.any
      fun election => election.nodes.length = 2 := by decide +kernel
  cases hresult : Placement.elect growing.request pair.tree pair.registry.list with
  | error e =>
    rw [hresult] at helect
    cases helect
  | ok election =>
    rw [hresult] at helect
    exact ⟨election, rfl, of_decide_eq_true helect⟩

theorem passes_converge_growing :
    Batch.maxPermits ≤ Batch.maxPermits ∧ pair.registry.Keyed ∧ WellPlaced pair.registry growing ∧
    (∃ d', Passes Batch.maxPermits 30 pair growing 3 d' ∧ d'.state = .converged ∧
      d'.matched.length = 3 ∧ d'.stale = []) ∧
    ∀ n d', 1 ≤ n → Passes Batch.maxPermits 30 pair growing n d' →
      (d'.state = .converged ↔ 2 ≤ n) := by
  have hkeyed : pair.registry.Keyed := Registry.keyed_ofNodes _
  obtain ⟨election, helect, hlength⟩ := exists_elected_growing
  obtain ⟨hmade, hled, hcount⟩ :=
    passes_converge (Nat.le_refl Batch.maxPermits) 30 hkeyed wellPlaced_growing fun _ => helect
  obtain ⟨hone, hall⟩ := hcount (show 0 ≤ 3 + Placement.maxDemand from Nat.zero_le _)
  have hnodes : election.nodes ≠ [] := List.length_pos_iff.1 (by omega)
  refine ⟨Nat.le_refl _, hkeyed, wellPlaced_growing, ?_, fun n d' hn h => ?_⟩
  · obtain ⟨d', h⟩ := hmade 3
    obtain ⟨-, hsettled, -⟩ := hled 3 d' h
    obtain ⟨hmatched, hstate, hstale, -⟩ := hsettled (Nat.le_of_eq hone)
    have hroom : growing.room pair.selector.maxInstancesPerNode election.nodes = ⊤ :=
      if_neg fun hempty => hnodes (List.isEmpty_iff.1 hempty)
    rw [hroom] at hmatched hstate
    rw [if_neg (show ¬ growing.scale ≤ growing.matched.length by decide), add_top,
      min_eq_left le_top, Nat.cast_inj] at hmatched
    have hconverged := hstate.2 (.inr le_top)
    exact ⟨d', h, hconverged, hmatched, hstale hconverged⟩
  · obtain ⟨-, -, hfirst⟩ := hled n d' h
    rw [hfirst rfl hnodes hn, hall, hlength]
    show max 1 2 ≤ n ↔ 2 ≤ n
    omega

/-- A limit that permits cannot be counted under: the first pass is aborted, so none returns. -/
theorem passes_abandoned :
    pair.registry.Keyed ∧ WellPlaced pair.registry growing ∧
    (∃ election, Placement.elect growing.request pair.tree pair.registry.list = .ok election ∧
      election.nodes.length = 2) ∧
    Ensures (UInt64.size - 1) 30 pair growing none ∧
    (∀ result, Ensures (UInt64.size - 1) 30 pair growing result → result = none) ∧
    ∀ n d', Passes (UInt64.size - 1) 30 pair growing n d' → n = 0 := by
  have hlimit : Batch.maxPermits < UInt64.size - 1 := by decide
  obtain ⟨election, helect, hlength⟩ := exists_elected_growing
  have hnodes : election.nodes ≠ [] := List.length_pos_iff.1 (by omega)
  have hroom : growing.room pair.selector.maxInstancesPerNode election.nodes ≠ 0 := by
    simp [Deployment.room, pair, hnodes]
  have hlt : growing.matched.length < growing.scale := by decide
  obtain ⟨p, selector, hstart⟩ := exists_planned wellPlaced_growing.known fun _ => helect
  have hplan := plan_ne_nil wellPlaced_growing.known hstart hlt helect hroom
  refine ⟨Registry.keyed_ofNodes _, wellPlaced_growing, ⟨election, helect, hlength⟩,
    ⟨p, selector, pair, hstart, ?_⟩, fun result => Ensures.eq_none hlimit hstart hplan,
    fun n d' h => (h.eq_zero hlimit wellPlaced_growing.known hlt helect hroom).1⟩
  rw [launch, if_neg (by simpa using hplan)]
  exact .aborted (hlimit.trans_le (Nat.le_max_left ..))

end Pass

end FleetControl
