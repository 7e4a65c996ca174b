import FleetControl.Proofs.Pass.Availability
import FleetControl.Proofs.Pass.Convergence

/-!
# The cap on instances per node

Under a cap a pass creates an instance on a node only while the node has fewer matched instances than
the cap allows, and it creates at most one there. So the instances of a fingerprint on a node, with
those still planned, are no more than the cap when the pass begins (`Pass.supplyOn_start`), and grow
no more (`Pass.Course.supplyWhere_le`). Nodes get instances once in a pass because its election lists
every node once (`Pass.nodup_createdOn_start`).
-/

namespace FleetControl

/-- How many instances with a fingerprint are on a node. -/
def Deployment.runningOn (d : Deployment) (nodeId fingerprint : String) : Nat :=
  d.instances.countP fun j => j.nodeId == nodeId && j.specFingerprint == fingerprint

/-- The nodes on which the dispatches create instances. -/
def Dispatch.createdOn (xs : List Dispatch) : List String :=
  (xs.filter Dispatch.isCreate).map Dispatch.nodeId

namespace Dispatch

theorem createdOn_append (xs ys : List Dispatch) :
    createdOn (xs ++ ys) = createdOn xs ++ createdOn ys := by
  rw [createdOn, List.filter_append, List.map_append, createdOn, createdOn]

theorem createdOn_sublist {xs ys : List Dispatch} (h : xs.Sublist ys) :
    (createdOn xs).Sublist (createdOn ys) :=
  (h.filter _).map _

theorem createdOn_perm {xs ys : List Dispatch} (h : xs.Perm ys) :
    (createdOn xs).Perm (createdOn ys) :=
  (h.filter _).map _

theorem createdOn_map_remove (targets : List Instance) (stale : Bool) :
    createdOn (targets.map (Dispatch.remove · stale)) = [] := by
  simp [createdOn, List.filter_map, Function.comp_def]

theorem createdOn_creations (spec : ContainerSpec) (seq : Nat) (nodes : List Node) :
    createdOn (Pass.creations spec seq nodes) = nodes.map (·.id) := by
  induction nodes generalizing seq with
  | nil => rfl
  | cons node rest ih =>
    rw [Pass.creations, createdOn, List.filter_cons_of_pos rfl, List.map_cons, ← createdOn, ih]
    rfl

end Dispatch

namespace Pass

variable {p p' : Pass} {d : Deployment} {f : Fleet} {selector : Placement.Selector}

theorem countP_creations (on : String → Bool) (spec : ContainerSpec) (seq : Nat)
    (nodes : List Node) :
    (creations spec seq nodes).countP (fun x => on x.nodeId && x.isCreate) =
      nodes.countP fun node => on node.id := by
  induction nodes generalizing seq with
  | nil => rfl
  | cons node rest ih =>
    rw [creations, List.countP_cons, List.countP_cons, ih]
    simp [Dispatch.nodeId]

/-- A pass creates on distinct nodes. -/
theorem nodup_createdOn_start (h : start f d = .planned p selector) :
    (Dispatch.createdOn p.plan).Nodup := by
  obtain ⟨-, -, -, hplan, -⟩ := start_planned h
  cases hplan with
  | remove victims _ _ hplan _ =>
    rw [hplan, Dispatch.createdOn_map_remove]
    exact List.nodup_nil
  | create election targets _ hel ht hplan _ =>
    rw [hplan, Dispatch.createdOn_creations, ht]
    exact f.selector.nodup_selectTargets (Placement.nodup_elected hel) ..

theorem createdOn_proceed (h : p.proceed f = .dispatching p') : Dispatch.createdOn p'.plan = [] := by
  obtain ⟨-, rfl⟩ := proceed_dispatching h
  exact Dispatch.createdOn_map_remove ..

/-- The plans after the first create nothing. -/
theorem createdOn_conclude {outcomes : List Outcome}
    (h : p.conclude f outcomes = .dispatching p') : Dispatch.createdOn p'.plan = [] :=
  createdOn_proceed h

theorem nodup_createdOn_launch (hp : (Dispatch.createdOn p.plan).Nodup)
    (h : p.launch f = .dispatching p') : (Dispatch.createdOn p'.plan).Nodup := by
  unfold launch at h
  split at h
  · rw [createdOn_proceed h]
    exact List.nodup_nil
  · cases h
    exact hp

/-- A node has no more matched instances than the cap when one more is to be created there. -/
theorem matchedOn_lt_of_target {election : Placement.Election} {cap : UInt32} {demand : Nat}
    {node : Node} (hcap : f.selector.maxInstancesPerNode = some cap)
    (h : node ∈ (f.selector.selectTargets election.nodes d.matched demand).1.nodes) :
    d.runningOn node.id d.specFingerprint < cap.toNat := by
  have hcandidate := (Placement.Selector.selectTargets_subperm ..).subset h
  have hroom := hasRoom_iff.1 (List.mem_filter.1 hcandidate).2 cap hcap
  rwa [Deployment.matchedOn, Deployment.matched, List.countP_filter] at hroom

/-- A pass begins with room for what it plans. -/
theorem supplyOn_start {cap : UInt32} (hcap : f.selector.maxInstancesPerNode = some cap)
    (hd : ∀ nodeId fingerprint, d.runningOn nodeId fingerprint ≤ cap.toNat)
    (h : start f d = .planned p selector) (nodeId fingerprint : String) :
    p.supplyWhere (· == nodeId) fingerprint ≤ cap.toNat := by
  obtain ⟨hcopy, hinst, -, hplan, -⟩ := start_planned h
  have hkept : (dropLost f.registry d).runningOn nodeId fingerprint ≤ cap.toNat :=
    Nat.le_trans (dropLost_sublist ..).countP_le (hd nodeId fingerprint)
  rw [supplyWhere, hinst, hcopy.specFingerprint]
  cases hplan with
  | remove victims _ _ hplan _ =>
    rw [hplan, countP_create_map_remove (· == nodeId), ite_self]
    exact hkept
  | create election targets _ hel ht hplan _ =>
    rw [hplan, countP_creations (· == nodeId)]
    split_ifs with hfp
    · have hone : targets.countP (fun node => node.id == nodeId) ≤ 1 := by
        have hnodup : (targets.map (·.id)).Nodup := by
          rw [ht]
          exact f.selector.nodup_selectTargets (Placement.nodup_elected hel) ..
        rw [List.nodup_iff_count_le_one] at hnodup
        have hcount := hnodup nodeId
        rwa [List.count, List.countP_map] at hcount
      rcases Nat.eq_zero_or_pos (targets.countP fun node => node.id == nodeId) with hnone | hsome
      · rw [hnone]
        exact hkept
      · -- an instance is to come on the node, so there is room for it
        obtain ⟨node, hnode, hid⟩ := List.countP_pos_iff.1 hsome
        have hroom := matchedOn_lt_of_target hcap (ht ▸ hnode)
        rw [beq_iff_eq.1 hid, (show (dropLost f.registry d).specFingerprint = fingerprint from hfp),
          Deployment.runningOn] at hroom
        omega
    · exact hkept

end Pass

end FleetControl
