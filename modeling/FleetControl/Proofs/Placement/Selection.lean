import FleetControl.Proofs.Placement.VictimOrder

/-!
# What a selection is

A selection is exact for every policy and every demand (`select_exact`).

* What it selects is as much as is demanded and there is, and what it cannot place is the
  shortfall.
* A policy that ranks by load takes the first of the candidates: `Selector.firstOf_selectTargets`
  for any order by which `Policy.rank` sorts.
* It does not matter how the nodes and the instances are listed: every policy looks at loads
  (`loadOf_of_perm`) and sorts, and the random order is drawn from the nodes sorted by id
  (`Policy.rank_of_perm`).
-/

namespace FleetControl

namespace Placement

/-! ### Orders of nodes -/

/-- Order by the instances hosted, then by id. -/
def leastHosted (current : List Instance) (a b : Node) : Ordering :=
  (compare (hosted current a.id) (hosted current b.id)).then (compare a.id b.id)

/-- Order by the instances hosted from above, then by id. -/
def mostHosted (current : List Instance) (a b : Node) : Ordering :=
  (compare (hosted current b.id) (hosted current a.id)).then (compare a.id b.id)

theorem leastLoaded_loadByNode (current : List Instance) :
    Policy.leastLoaded (loadByNode current) = leastHosted current := by
  funext a b
  rw [Policy.leastLoaded, loadOf_loadByNode, loadOf_loadByNode]
  rfl

theorem mostLoaded_loadByNode (current : List Instance) :
    Policy.mostLoaded (loadByNode current) = mostHosted current := by
  funext a b
  rw [Policy.mostLoaded, loadOf_loadByNode, loadOf_loadByNode]
  rfl

instance (current : List Instance) : Std.TransCmp (leastHosted current) :=
  inferInstanceAs (Std.TransCmp (compareLex (compareOn fun n : Node => hosted current n.id)
    (compareOn Node.id)))

instance (current : List Instance) : Std.TransCmp (mostHosted current) :=
  have : Std.TransCmp fun a b => compareOn (fun n : Node => hosted current n.id) b a :=
    Std.TransCmp.opposite
  inferInstanceAs (Std.TransCmp (compareLex
    (fun a b => compareOn (fun n : Node => hosted current n.id) b a) (compareOn Node.id)))

instance : Std.TransCmp Policy.byId := inferInstanceAs (Std.TransCmp (compareOn Node.id))

/-- Nodes that an order does not tell apart have one id. -/
def SeesIds (order : Node → Node → Ordering) : Prop := ∀ a b, order a b = .eq → a.id = b.id

theorem seesIds_byId : SeesIds Policy.byId := fun _ _ h => Std.LawfulEqCmp.eq_of_compare h

theorem seesIds_leastHosted (current : List Instance) : SeesIds (leastHosted current) :=
  fun _ _ h => Std.LawfulEqCmp.eq_of_compare (Ordering.then_eq_eq.1 h).2

theorem seesIds_mostHosted (current : List Instance) : SeesIds (mostHosted current) :=
  fun _ _ h => Std.LawfulEqCmp.eq_of_compare (Ordering.then_eq_eq.1 h).2

theorem SeesIds.eq {order : Node → Node → Ordering} (h : SeesIds order) {nodes : List Node}
    (hnodup : (nodes.map (·.id)).Nodup) {a b : Node} (ha : a ∈ nodes) (hb : b ∈ nodes)
    (heq : order a b = .eq) : a = b :=
  List.inj_on_of_nodup_map hnodup ha hb (h a b heq)

/-- The first of some nodes in an order: they are listed in it, and none left out comes before. -/
structure FirstOf (order : Node → Node → Ordering) (nodes first : List Node) : Prop where
  sorted : first.Pairwise fun a b => order a b = .lt
  before : ∀ a ∈ first, ∀ b ∈ nodes, b ∉ first → order a b = .lt

theorem firstOf_take {order : Node → Node → Ordering} [Std.TransCmp order] (hids : SeesIds order)
    {nodes : List Node} (hnodup : (nodes.map (·.id)).Nodup) (n : Nat) :
    FirstOf order nodes ((Policy.sortNodes order nodes).take n) := by
  have hperm : (Policy.sortNodes order nodes).Perm nodes := List.mergeSort_perm ..
  have hdistinct : (Policy.sortNodes order nodes).Pairwise fun a b => a.id ≠ b.id :=
    List.pairwise_map.1 ((hperm.map Node.id).nodup_iff.2 hnodup)
  have hlt : (Policy.sortNodes order nodes).Pairwise fun a b => order a b = .lt :=
    pairwise_lt_of_sorted order (pairwise_sorted order nodes)
      (hdistinct.imp fun hne heq => hne (hids _ _ heq))
  rw [← List.take_append_drop n (Policy.sortNodes order nodes)] at hlt hperm
  obtain ⟨htake, -, hcross⟩ := List.pairwise_append.1 hlt
  refine ⟨htake, fun a ha b hb hout => hcross a ha b ?_⟩
  exact (List.mem_append.1 (hperm.mem_iff.2 hb)).resolve_left hout

/-! ### Reordering -/

theorem sortNodes_of_perm {order : Node → Node → Ordering} [Std.TransCmp order]
    (hids : SeesIds order) {nodes nodes' : List Node} (hnodup : (nodes.map (·.id)).Nodup)
    (hperm : nodes.Perm nodes') :
    Policy.sortNodes order nodes = Policy.sortNodes order nodes' :=
  sorted_of_perm order (fun _ ha _ hb => hids.eq hnodup ha hb) hperm

theorem leastHosted_of_perm {current current' : List Instance} (h : current.Perm current') :
    leastHosted current = leastHosted current' := by
  funext a b
  rw [leastHosted, leastHosted, hosted_of_perm h, hosted_of_perm h]

theorem mostHosted_of_perm {current current' : List Instance} (h : current.Perm current') :
    mostHosted current = mostHosted current' := by
  funext a b
  rw [mostHosted, mostHosted, hosted_of_perm h, hosted_of_perm h]

/-- The order of preference does not depend on how the candidates and the instances are listed. -/
theorem Policy.rank_of_perm (policy : Policy) {candidates candidates' : List Node}
    (hnodup : (candidates.map (·.id)).Nodup) (hcandidates : candidates.Perm candidates')
    {current current' : List Instance} (hcurrent : current.Perm current') :
    policy.rank candidates (loadByNode current) =
      policy.rank candidates' (loadByNode current') := by
  cases policy with
  | spread =>
    rw [rank, rank, leastLoaded_loadByNode, leastLoaded_loadByNode,
      ← leastHosted_of_perm hcurrent,
      sortNodes_of_perm (seesIds_leastHosted current) hnodup hcandidates]
  | binPack =>
    rw [rank, rank, mostLoaded_loadByNode, mostLoaded_loadByNode, ← mostHosted_of_perm hcurrent,
      sortNodes_of_perm (seesIds_mostHosted current) hnodup hcandidates]
  | random generator =>
    rw [rank, rank, sortNodes_of_perm seesIds_byId hnodup hcandidates]

theorem VictimPolicy.choose_of_perm (policy : VictimPolicy) {current current' : List Instance}
    (hnodup : (current.map (·.id)).Nodup) (hperm : current.Perm current') (n : Nat) :
    policy.choose current n = policy.choose current' n := by
  cases policy with
  | mostLoadedOldestFirst => exact drainMostLoaded_of_perm hnodup hperm n
  | newestFirst =>
    show newest current n = newest current' n
    rw [newest, newest, newestToOldest_of_perm hnodup hperm]

namespace Selector

variable (s : Selector)

/-- The cap leaves room for another instance on a node that hosts fewer. -/
def takesMore (current : List Instance) (node : Node) : Bool :=
  s.maxInstancesPerNode.all fun cap => hosted current node.id < cap.toNat

theorem hasRoom_eq (current : List Instance) :
    s.hasRoom (loadByNode current) = s.takesMore current := by
  funext node
  rw [hasRoom, takesMore]
  cases s.maxInstancesPerNode with
  | none => rfl
  | some cap => rw [Option.all_some, loadOf_loadByNode]; rfl

theorem candidates_eq (eligible : List Node) (current : List Instance) :
    s.candidates eligible current = eligible.filter (s.takesMore current) := by
  rw [candidates, hasRoom_eq]

theorem takesMore_of_perm {current current' : List Instance} (h : current.Perm current') :
    s.takesMore current = s.takesMore current' := by
  funext node
  rw [takesMore, takesMore, hosted_of_perm h]

theorem selectTargets_of_perm {eligible eligible' : List Node} {current current' : List Instance}
    (hnodup : (eligible.map (·.id)).Nodup) (heligible : eligible.Perm eligible')
    (hcurrent : current.Perm current') (demand : Nat) :
    s.selectTargets eligible current demand = s.selectTargets eligible' current' demand := by
  have hcandidates : (s.candidates eligible current).Perm (s.candidates eligible' current') := by
    rw [candidates_eq, candidates_eq, ← s.takesMore_of_perm hcurrent]
    exact heligible.filter _
  have hrank := s.policy.rank_of_perm (hnodup.sublist (List.filter_sublist.map _)) hcandidates
    hcurrent
  unfold candidates at hrank
  simp only [selectTargets, hrank]

/-- A selection does not depend on how the nodes and the instances are listed. -/
theorem select_of_perm {eligible eligible' : List Node} {current current' : List Instance}
    (hnodes : (eligible.map (·.id)).Nodup) (hinstances : (current.map (·.id)).Nodup)
    (heligible : eligible.Perm eligible') (hcurrent : current.Perm current') (demand : Int) :
    s.select eligible current demand = s.select eligible' current' demand := by
  rw [select, select, s.selectTargets_of_perm hnodes heligible hcurrent, selectVictims,
    selectVictims, s.victims.choose_of_perm hinstances hcurrent]

/-- If the policy sorts by an order, the targets are the first of the candidates in it. -/
theorem firstOf_selectTargets {order : Node → Node → Ordering} [Std.TransCmp order]
    (hids : SeesIds order) {eligible : List Node} (hnodup : (eligible.map (·.id)).Nodup)
    {current : List Instance}
    (hrank : ∀ candidates, (s.policy.rank candidates (loadByNode current)).1 =
      Policy.sortNodes order candidates) (demand : Nat) :
    FirstOf order (eligible.filter (s.takesMore current))
      ((s.selectTargets eligible current (demand + 1)).1.nodes) := by
  have hcandidates : ((eligible.filter (s.takesMore current)).map (·.id)).Nodup :=
    hnodup.sublist (List.filter_sublist.map Node.id)
  have hfirst := firstOf_take hids hcandidates (demand + 1)
  rw [← hrank, ← hasRoom_eq] at hfirst
  rw [← hasRoom_eq]
  exact hfirst

/-- What is promised of the targets that meet a positive demand. -/
structure Places (eligible : List Node) (current : List Instance) (demand : Nat)
    (targets : Targets) : Prop where
  length : targets.nodes.length = min demand (eligible.filter (s.takesMore current)).length
  distinct : (targets.nodes.map (·.id)).Nodup
  subset : targets.nodes ⊆ eligible.filter (s.takesMore current)
  /-- What could not be placed is left over. -/
  shortfall : targets.shortfall = demand - targets.nodes.length
  /-- No node left out hosts less, or as much under a lower id. -/
  spread : s.policy = .spread →
    FirstOf (leastHosted current) (eligible.filter (s.takesMore current)) targets.nodes
  /-- No node left out hosts more, or as much under a lower id. -/
  binPack : s.policy = .binPack →
    FirstOf (mostHosted current) (eligible.filter (s.takesMore current)) targets.nodes

theorem places_selectTargets {eligible : List Node} (hnodup : (eligible.map (·.id)).Nodup)
    (current : List Instance) {demand : Nat} (hdemand : demand ≠ 0) :
    s.Places eligible current demand (s.selectTargets eligible current demand).1 where
  length := by rw [length_selectTargets, candidates_eq]
  distinct := s.nodup_selectTargets hnodup current demand
  subset := by
    rw [← candidates_eq]
    exact (s.selectTargets_subperm eligible current demand).subset
  shortfall := s.shortfall_selectTargets eligible current demand
  spread hpolicy := by
    obtain ⟨n, rfl⟩ := Nat.exists_eq_succ_of_ne_zero hdemand
    refine s.firstOf_selectTargets (seesIds_leastHosted current) hnodup (fun candidates => ?_) n
    rw [hpolicy, Policy.rank, leastLoaded_loadByNode]
  binPack hpolicy := by
    obtain ⟨n, rfl⟩ := Nat.exists_eq_succ_of_ne_zero hdemand
    refine s.firstOf_selectTargets (seesIds_mostHosted current) hnodup (fun candidates => ?_) n
    rw [hpolicy, Policy.rank, mostLoaded_loadByNode]

/-- What is promised of a selection: `min demand.natAbs maxDemand` is the demand it considers. -/
structure Exact (eligible : List Node) (current : List Instance) (demand : Int) : Prop where
  /-- A positive demand is placed on nodes, as far as there are candidates. -/
  creates : 0 < demand → ∃ targets, (s.select eligible current demand).1 = .create targets ∧
    s.Places eligible current (min demand.natAbs maxDemand) targets
  /-- A negative demand takes instances, as far as there are any, and draws nothing. -/
  removes : demand < 0 → ∃ victims, s.select eligible current demand = (.remove victims, s) ∧
    victims.length = min (min demand.natAbs maxDemand) current.length ∧
    (victims.map (·.id)).Nodup ∧ victims ⊆ current
  /-- No demand selects nothing and draws nothing. -/
  nothing : demand = 0 → s.select eligible current demand = (.nothing, s)
  /-- It does not matter how the nodes and the instances are listed, neither for what is selected
  nor for what is drawn. -/
  unordered : ∀ eligible' current', eligible.Perm eligible' → current.Perm current' →
    s.select eligible' current' demand = s.select eligible current demand

end Selector

/-- **A selection is exact, for every policy and every demand.** -/
theorem select_exact (s : Selector) {eligible : List Node} {current : List Instance}
    (hnodes : (eligible.map (·.id)).Nodup) (hinstances : (current.map (·.id)).Nodup)
    (demand : Int) : s.Exact eligible current demand where
  creates hpos := by
    have hdemand : min demand.toNat maxDemand = min demand.natAbs maxDemand := by
      rw [show demand.toNat = demand.natAbs by omega]
    refine ⟨_, s.select_of_pos eligible current hpos, ?_⟩
    rw [hdemand]
    have hne : min demand.natAbs maxDemand ≠ 0 := by
      have : maxDemand = 4294967295 := rfl
      omega
    exact s.places_selectTargets hnodes current hne
  removes hneg := by
    refine ⟨s.selectVictims current (min demand.natAbs maxDemand), ?_, ?_, ?_, ?_⟩
    · rw [Selector.select, if_neg (by omega), if_neg (by omega)]
    · exact s.victims.length_choose current _
    · obtain ⟨l, hl, hsub⟩ := s.victims.choose_subperm current (min demand.natAbs maxDemand)
      exact (hl.map _).nodup_iff.1 (hinstances.sublist (hsub.map _))
    · exact (s.victims.choose_subperm current _).subset
  nothing hzero := by rw [Selector.select, if_pos hzero]
  unordered _ _ heligible hcurrent :=
    (s.select_of_perm hnodes hinstances heligible hcurrent demand).symm

/-- Three nodes, of which `b` hosts most of `fiveInstances`. -/
def threeNodes : List Node := [{ id := "c" }, { id := "a" }, { id := "b" }]

/-- A selector that ranks at random and places at most two instances on a node. -/
def drawing : Selector where
  policy := .random { key := [1, 2, 3, 4, 5, 6, 7, 8], position := 0 }
  maxInstancesPerNode := some 2

theorem select_exact_fiveInstances :
    (threeNodes.map (·.id)).Nodup ∧ (fiveInstances.map (·.id)).Nodup ∧
      drawing.Exact threeNodes fiveInstances 3 :=
  ⟨by decide, by decide, select_exact drawing (by decide) (by decide) 3⟩

end Placement

end FleetControl
