import FleetControl.Placement.Election
import FleetControl.Proofs.Placement.Victims

/-!
# Where new instances go

The nodes that a selection targets are nodes of the election, each at most once, and there are as
many as the demand asks for and the cap leaves room for:

* `Policy.rank_perm` : every policy ranks the candidates it is given and no others;
* `loadOf_loadByNode` : the load of a node counts the instances it hosts;
* `Selector.selectTargets_subperm`, `Selector.length_selectTargets` : the targets are candidates
  with room, `min` of the demand and their number;
* `mem_known_of_elected`, `nodup_elected` : the nodes of an election are known nodes with distinct
  ids.
-/

namespace FleetControl

/-! ### Orders drawn at random -/

namespace Random

theorem swapAt_perm {α : Type} (xs : List α) (i j : Nat) : (swapAt xs i j).Perm xs := by
  unfold swapAt
  split
  · next a b ha hb =>
    obtain ⟨hi, rfl⟩ := List.getElem?_eq_some_iff.1 ha
    obtain ⟨hj, rfl⟩ := List.getElem?_eq_some_iff.1 hb
    exact List.set_set_perm hi hj
  · exact List.Perm.refl _

theorem shuffleFrom_perm {α : Type} (n : Nat) (xs : List α) (g : Generator) :
    (shuffleFrom n xs g).1.Perm xs := by
  induction n generalizing xs g with
  | zero => exact List.Perm.refl _
  | succ n ih => exact (ih _ _).trans (swapAt_perm ..)

theorem shuffle_perm {α : Type} (xs : List α) (g : Generator) : (shuffle xs g).1.Perm xs :=
  shuffleFrom_perm ..

end Random

namespace Placement

/-! ### Ranking -/

theorem Policy.rank_perm (policy : Policy) (candidates : List Node) (load : SortedMap String Nat) :
    (policy.rank candidates load).1.Perm candidates := by
  cases policy with
  | spread => exact List.mergeSort_perm ..
  | binPack => exact List.mergeSort_perm ..
  | random g => exact (Random.shuffle_perm _ g).trans (List.mergeSort_perm ..)

/-- The policy ranks by load and draws nothing. -/
def Policy.IsSteady (policy : Policy) : Prop := policy = .spread ∨ policy = .binPack

theorem Policy.IsSteady.rank {policy : Policy} (h : policy.IsSteady) (candidates : List Node)
    (load : SortedMap String Nat) : (policy.rank candidates load).2 = policy := by
  rcases h with rfl | rfl <;> rfl

/-- The load of a node counts the instances it hosts. -/
theorem loadOf_loadByNode (instances : List Instance) (node : Node) :
    Policy.loadOf (loadByNode instances) node = instances.countP (·.nodeId == node.id) := by
  suffices h : ∀ load : SortedMap String Nat, Policy.loadOf (instances.foldl (fun load i =>
      load.insert i.nodeId ((load.get? i.nodeId).getD 0 + 1)) load) node =
      instances.countP (·.nodeId == node.id) + Policy.loadOf load node by
    exact h .empty
  induction instances with
  | nil => simp
  | cons i rest ih =>
    intro load
    rw [List.foldl_cons, ih, List.countP_cons]
    by_cases hi : i.nodeId = node.id
    · simp [Policy.loadOf, hi, SortedMap.get?_insert_self]
      omega
    · simp [Policy.loadOf, hi, SortedMap.get?_insert_of_ne (Ne.symm hi)]

/-! ### Targets -/

namespace Selector

variable (s : Selector)

theorem hasRoom_iff {s : Selector} {current : List Instance} {node : Node} :
    s.hasRoom (loadByNode current) node ↔
      ∀ most ∈ s.maxInstancesPerNode, current.countP (·.nodeId == node.id) < most.toNat := by
  unfold hasRoom
  cases s.maxInstancesPerNode with
  | none => simp
  | some most => simp [loadOf_loadByNode]

/-- The nodes of an election that may receive another instance. -/
def candidates (elected : List Node) (current : List Instance) : List Node :=
  elected.filter (s.hasRoom (loadByNode current))

theorem selectTargets_subperm (elected : List Node) (current : List Instance) (demand : Nat) :
    (s.selectTargets elected current demand).1.nodes.Subperm (s.candidates elected current) := by
  unfold selectTargets
  split
  · exact List.nil_subperm
  · exact (List.take_sublist ..).subperm.trans (Policy.rank_perm ..).subperm

/-- The targets are on distinct nodes if the elected nodes are. -/
theorem nodup_selectTargets {elected : List Node} (h : (elected.map (·.id)).Nodup)
    (current : List Instance) (demand : Nat) :
    ((s.selectTargets elected current demand).1.nodes.map (·.id)).Nodup := by
  obtain ⟨l, hl, hsub⟩ := s.selectTargets_subperm elected current demand
  exact (hl.map _).nodup_iff.1 (h.sublist ((hsub.trans List.filter_sublist).map _))

theorem length_selectTargets (elected : List Node) (current : List Instance) (demand : Nat) :
    (s.selectTargets elected current demand).1.nodes.length =
      min demand (s.candidates elected current).length := by
  unfold selectTargets
  split
  · next h => simp [h]
  · simp [(Policy.rank_perm ..).length_eq, candidates]

/-- What the targets leave of the demand. -/
theorem shortfall_selectTargets (elected : List Node) (current : List Instance) (demand : Nat) :
    (s.selectTargets elected current demand).1.shortfall =
      demand - (s.selectTargets elected current demand).1.nodes.length := by
  unfold selectTargets
  split
  · next h => simp [h]
  · rfl

theorem selectVictims_zero (current : List Instance) : s.selectVictims current 0 = [] :=
  List.length_eq_zero_iff.1 ((VictimPolicy.length_choose ..).trans (Nat.zero_min _))

theorem select_of_pos (elected : List Node) (current : List Instance) {demand : Int}
    (h : 0 < demand) : (s.select elected current demand).1 =
      .create (s.selectTargets elected current (min demand.toNat maxDemand)).1 := by
  have hne : demand ≠ 0 := by omega
  simp [select, h, hne]

theorem select_of_neg (elected : List Node) (current : List Instance) {demand : Int}
    (h : demand < 0) : (s.select elected current demand).1 =
      .remove (s.selectVictims current (min demand.natAbs maxDemand)) := by
  have hne : demand ≠ 0 := by omega
  have hpos : ¬ 0 < demand := by omega
  simp [select, hpos, hne]

/-- Nothing is created where nothing is missing. -/
theorem select_ne_create (elected : List Node) (current : List Instance) {demand : Int}
    (h : demand ≤ 0) (targets : Targets) :
    (s.select elected current demand).1 ≠ .create targets := by
  by_cases hzero : demand = 0
  · simp [select, hzero]
  · rw [select_of_neg _ _ _ (by omega)]
    simp

theorem select_policies (elected : List Node) (current : List Instance) (demand : Int) :
    (s.select elected current demand).2.victims = s.victims ∧
      (s.select elected current demand).2.maxInstancesPerNode = s.maxInstancesPerNode := by
  unfold select selectTargets
  split_ifs <;> simp

/-- A policy that draws nothing leaves the selector as it is. -/
theorem select_steady (h : s.policy.IsSteady) (elected : List Node) (current : List Instance)
    (demand : Int) : (s.select elected current demand).2 = s := by
  unfold select selectTargets
  split_ifs <;> simp [h.rank]

end Selector

/-! ### Elections -/

/-- Every node that a census has counted is one of `known`. -/
structure Census.Within (census : Census) (known : List Node) : Prop where
  independent : ∀ node ∈ census.independent.values, node ∈ known
  members : ∀ nodes ∈ census.members.values, ∀ node ∈ nodes, node ∈ known

theorem Census.Within.add {census : Census} {known : List Node} (h : census.Within known)
    (t : Region.Tree) {node : Node} (hnode : node ∈ known) : (census.add t node).Within known := by
  unfold Census.add
  split
  · next cluster _ =>
    refine ⟨h.independent, fun nodes hnodes n hn => ?_⟩
    obtain ⟨c, hc⟩ := SortedMap.mem_values.1 hnodes
    by_cases hcc : c = cluster
    · rw [hcc, SortedMap.get?_insert_self, Option.some.injEq] at hc
      subst hc
      rcases List.mem_append.1 hn with hn | hn
      · cases hget : census.members.get? cluster with
        | none => simp [hget] at hn
        | some old =>
          rw [hget] at hn
          exact h.members old (SortedMap.mem_values.2 ⟨_, hget⟩) n hn
      · rw [List.mem_singleton.1 hn]
        exact hnode
    · rw [SortedMap.get?_insert_of_ne hcc] at hc
      exact h.members nodes (SortedMap.mem_values.2 ⟨c, hc⟩) n hn
  · refine ⟨fun n hn => ?_, h.members⟩
    obtain ⟨id, hid⟩ := SortedMap.mem_values.1 hn
    by_cases hii : id = node.id
    · rw [hii, SortedMap.get?_insert_self, Option.some.injEq] at hid
      exact hid ▸ hnode
    · rw [SortedMap.get?_insert_of_ne hii] at hid
      exact h.independent n (SortedMap.mem_values.2 ⟨id, hid⟩)

theorem Census.within_take (t : Region.Tree) (known : List Node) :
    (Census.take t known).Within known := by
  suffices h : ∀ (nodes : List Node) (census : Census), nodes ⊆ known → census.Within known →
      (nodes.foldl (Census.add t) census).Within known by
    refine h known {} (List.Subset.refl _) ⟨fun node hn => ?_, fun nodes hn => ?_⟩
    · cases hn
    · cases hn
  intro nodes
  induction nodes with
  | nil => exact fun census _ h => h
  | cons node rest ih =>
    intro census hsub h
    obtain ⟨hnode, hrest⟩ := List.cons_subset.1 hsub
    exact ih _ hrest (h.add t hnode)

theorem mem_known_of_electWithin {request : Request} {t : Region.Tree} {known : List Node}
    {scope : Region.Path} {scopeId : Region.RegionId} {node : Node}
    (h : node ∈ (electWithin request t known scope scopeId).nodes) : node ∈ known := by
  have hcensus := Census.within_take t known
  simp only [electWithin, List.partition_eq_filter_filter] at h
  rcases List.mem_append.1 (SortedMap.mem_of_mem_values_ofList h) with h | h
  · exact hcensus.independent node (List.mem_of_mem_filter h)
  · obtain ⟨group, hgroup, hnode⟩ := List.mem_flatMap.1 h
    have hmem := List.mem_of_mem_filter (List.mem_of_mem_filter hgroup)
    exact hcensus.members group.2 (List.mem_map_of_mem hmem) node hnode

theorem nodup_electWithin (request : Request) (t : Region.Tree) (known : List Node)
    (scope : Region.Path) (scopeId : Region.RegionId) :
    ((electWithin request t known scope scopeId).nodes.map (·.id)).Nodup := by
  unfold electWithin
  dsimp only
  rw [SortedMap.map_values_ofList (fun node : Node => node.id)]
  exact SortedMap.nodup_keys _

theorem elect_eq_ok {request : Request} {t : Region.Tree} {known : List Node} {e : Election}
    (h : elect request t known = .ok e) :
    e = {} ∨ ∃ scope scopeId, e = electWithin request t known scope scopeId := by
  simp only [elect, bind, Except.bind, pure, Except.pure, throw, throwThe, MonadExceptOf.throw] at h
  repeat' split at h
  all_goals simp only [reduceCtorEq, Except.ok.injEq] at h
  · exact .inl h.symm
  · exact .inr ⟨_, _, h.symm⟩

/-- The nodes of an election are known. -/
theorem mem_known_of_elected {request : Request} {t : Region.Tree} {known : List Node}
    {e : Election} (h : elect request t known = .ok e) {node : Node} (hnode : node ∈ e.nodes) :
    node ∈ known := by
  rcases elect_eq_ok h with rfl | ⟨scope, scopeId, rfl⟩
  · cases hnode
  · exact mem_known_of_electWithin hnode

/-- The nodes of an election have distinct ids. -/
theorem nodup_elected {request : Request} {t : Region.Tree} {known : List Node} {e : Election}
    (h : elect request t known = .ok e) : (e.nodes.map (·.id)).Nodup := by
  rcases elect_eq_ok h with rfl | ⟨scope, scopeId, rfl⟩
  · exact List.nodup_nil
  · exact nodup_electWithin ..

end Placement

end FleetControl
