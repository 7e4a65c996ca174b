import FleetControl.Proofs.Placement.Targets

/-!
# Level load

The instances are *level* over some nodes if no two of these host numbers of instances that differ
by more than one (`Level`).

* `Level.append` : ranking by least load keeps them level, whatever the demand and the cap. A node
  that gets an instance hosts no more of them than a node that gets none.
* `exists_left_drainMostLoaded` : draining keeps them level at every step, since it takes from a node
  that hosts most. Here a group must hold the instances of the node it is listed under (`Grouped`).
-/

namespace FleetControl

namespace Placement

/-- How many of the instances a node hosts. -/
def hosted (instances : List Instance) (nodeId : String) : Nat :=
  instances.countP (·.nodeId == nodeId)

theorem hosted_append (xs ys : List Instance) (nodeId : String) :
    hosted (xs ++ ys) nodeId = hosted xs nodeId + hosted ys nodeId :=
  List.countP_append

theorem hosted_of_perm {xs ys : List Instance} (h : xs.Perm ys) (nodeId : String) :
    hosted xs nodeId = hosted ys nodeId :=
  h.countP_eq _

theorem hosted_cons_self (i : Instance) (xs : List Instance) :
    hosted (i :: xs) i.nodeId = hosted xs i.nodeId + 1 :=
  List.countP_cons_of_pos (beq_self_eq_true _)

theorem hosted_cons_of_ne {i : Instance} {nodeId : String} (h : nodeId ≠ i.nodeId)
    (xs : List Instance) : hosted (i :: xs) nodeId = hosted xs nodeId :=
  List.countP_cons_of_neg fun heq => h (beq_iff_eq.1 heq).symm

theorem hosted_eq_count (instances : List Instance) (nodeId : String) :
    hosted instances nodeId = (instances.map (·.nodeId)).count nodeId := by
  rw [hosted, List.count, List.countP_map]
  rfl

/-- Any two of the nodes host numbers of instances that differ by at most one. -/
def Level (ids : List String) (instances : List Instance) : Prop :=
  ∀ a ∈ ids, ∀ b ∈ ids, hosted instances a ≤ hosted instances b + 1

variable {ids : List String}

theorem level_nil (ids : List String) : Level ids [] := fun _ _ _ _ => Nat.zero_le _

theorem Level.of_perm {xs ys : List Instance} (h : Level ids xs) (hperm : xs.Perm ys) :
    Level ids ys := fun a ha b hb => by
  rw [← hosted_of_perm hperm, ← hosted_of_perm hperm]
  exact h a ha b hb

/-! ### New instances -/

namespace Policy

instance (load : SortedMap String Nat) : Std.TransCmp (leastLoaded load) :=
  inferInstanceAs (Std.TransCmp (compareLex (compareOn (loadOf load)) (compareOn Node.id)))

/-- No node is ranked before one that hosts less. -/
theorem pairwise_rank_spread (candidates : List Node) (load : SortedMap String Nat) :
    (rank .spread candidates load).1.Pairwise fun a b => loadOf load a ≤ loadOf load b := by
  have htotal (a b : Node) : ((leastLoaded load a b).isLE || (leastLoaded load b a).isLE) = true := by
    have hswap : (leastLoaded load a b).isGE = (leastLoaded load b a).isLE :=
      Std.OrientedCmp.isGE_eq_isLE
    rw [← hswap]
    cases leastLoaded load a b <;> rfl
  have hsorted : (sortNodes (leastLoaded load) candidates).Pairwise
      fun a b => (leastLoaded load a b).isLE = true :=
    List.pairwise_mergeSort (fun _ _ _ => Std.TransCmp.isLE_trans) htotal candidates
  exact hsorted.imp fun h => Nat.isLE_compare.1 (Ordering.isLE_left_of_isLE_then h)

end Policy

/-- A target hosts no more than an eligible node that is none. -/
theorem hosted_target_le {s : Selector} (hs : s.policy = .spread) {elected : List Node}
    {current : List Instance} {demand : Nat} {a b : Node}
    (ha : a ∈ (s.selectTargets elected current demand).1.nodes) (hb : b ∈ elected)
    (hb' : b ∉ (s.selectTargets elected current demand).1.nodes) :
    hosted current a.id ≤ hosted current b.id := by
  have hroom := Selector.hasRoom_iff.1
    (List.mem_filter.1 ((s.selectTargets_subperm ..).subset ha)).2
  by_cases hcandidate : b ∈ s.candidates elected current
  · -- both are ranked, and `b` is not among the first
    unfold Selector.selectTargets at ha hb'
    split_ifs at ha with hdemand
    · exact absurd ha List.not_mem_nil
    · rw [if_neg hdemand] at hb'
      simp only [hs] at ha hb'
      have hranked : b ∈ (Policy.rank .spread (s.candidates elected current)
          (loadByNode current)).1 := (Policy.rank_perm ..).mem_iff.2 hcandidate
      have hsorted := Policy.pairwise_rank_spread (s.candidates elected current)
        (loadByNode current)
      rw [← List.take_append_drop demand (Policy.rank ..).1] at hranked hsorted
      have hle := (List.pairwise_append.1 hsorted).2.2 a ha b
        ((List.mem_append.1 hranked).resolve_left hb')
      rwa [loadOf_loadByNode, loadOf_loadByNode] at hle
  · -- the cap leaves room on `a` and none on `b`
    have hfull : ¬ s.hasRoom (loadByNode current) b := fun h =>
      hcandidate (List.mem_filter.2 ⟨hb, h⟩)
    rw [Selector.hasRoom_iff] at hfull
    simp only [not_forall, Nat.not_lt] at hfull
    obtain ⟨most, hmost, hle⟩ := hfull
    exact Nat.le_trans (Nat.le_of_lt (hroom most hmost)) hle

/-- **One new instance on each target keeps the instances level.** -/
theorem Level.append {s : Selector} (hs : s.policy = .spread) {elected : List Node}
    (hnodup : (elected.map (·.id)).Nodup) {current created : List Instance} {demand : Nat}
    (h : Level (elected.map (·.id)) current)
    (hcreated : created.map (·.nodeId) =
      (s.selectTargets elected current demand).1.nodes.map (·.id)) :
    Level (elected.map (·.id)) (current ++ created) := by
  have htargets := s.nodup_selectTargets hnodup current demand
  intro a ha b hb
  have hab := h a ha b hb
  rw [hosted_append, hosted_append, hosted_eq_count created, hosted_eq_count created, hcreated]
  have hone := List.nodup_iff_count_le_one.1 htargets a
  by_cases hbt : b ∈ (s.selectTargets elected current demand).1.nodes.map (·.id)
  · rw [List.count_eq_one_of_mem htargets hbt]
    omega
  · rcases Nat.eq_zero_or_pos
      (((s.selectTargets elected current demand).1.nodes.map (·.id)).count a) with hzero | hpos
    · omega
    · obtain ⟨x, hx, rfl⟩ := List.mem_map.1 (List.count_pos_iff.1 hpos)
      obtain ⟨y, hy, rfl⟩ := List.mem_map.1 hb
      have hle := hosted_target_le hs hx hy fun hmem => hbt (List.mem_map_of_mem hmem)
      omega

/-! ### Instances removed -/

/-- Every group holds instances of the node it is listed under. -/
def Grouped (groups : SortedMap String (List Instance)) : Prop :=
  ∀ id group, groups.get? id = some group → ∀ i ∈ group, i.nodeId = id

theorem Grouped.insert {groups : SortedMap String (List Instance)} (h : Grouped groups)
    {id : String} {group : List Instance} (hgroup : ∀ i ∈ group, i.nodeId = id) :
    Grouped (groups.insert id group) := by
  intro id' group' hget
  by_cases hid : id' = id
  · rw [hid, SortedMap.get?_insert_self, Option.some.injEq] at hget
    rw [hid, ← hget]
    exact hgroup
  · rw [SortedMap.get?_insert_of_ne hid] at hget
    exact h id' group' hget

theorem grouped_groupByNode (instances : List Instance) : Grouped (groupByNode instances) := by
  suffices h : ∀ groups, Grouped groups → Grouped (instances.foldl (fun groups i =>
      groups.insert i.nodeId ((groups.get? i.nodeId).getD [] ++ [i])) groups) by
    exact h .empty fun id group hget => by cases hget
  induction instances with
  | nil => exact fun groups h => h
  | cons i rest ih =>
    refine fun groups h => ih _ (h.insert fun j hj => ?_)
    rcases List.mem_append.1 hj with hj | hj
    · cases hget : groups.get? i.nodeId with
      | none => simp [hget] at hj
      | some group =>
        rw [hget] at hj
        exact h _ group hget j hj
    · rw [List.mem_singleton.1 hj]

/-- A node hosts the instances of its group. -/
theorem Grouped.hosted_members {groups : SortedMap String (List Instance)} (h : Grouped groups)
    (id : String) : hosted (members groups) id = ((groups.get? id).getD []).length := by
  -- the instances of the other groups are on other nodes
  have hothers : hosted (members (groups.erase id)) id = 0 := by
    refine List.countP_eq_zero.2 fun i hi hid => ?_
    obtain ⟨group, hgroup, hmem⟩ := List.mem_flatten.1 hi
    obtain ⟨id', hget⟩ := SortedMap.mem_values.1 hgroup
    rw [SortedMap.get?_erase] at hget
    split_ifs at hget with hne
    exact hne ((h id' group hget i hmem).symm.trans (beq_iff_eq.1 hid))
  cases hget : groups.get? id with
  | none =>
    rw [SortedMap.erase_of_get?_eq_none hget] at hothers
    exact hothers
  | some group =>
    rw [hosted_of_perm (members_of_get? hget), hosted_append, hothers, Nat.add_zero]
    exact List.countP_eq_length.2 fun i hi => beq_iff_eq.2 (h id group hget i hi)

/-- The fullest group is that of a node that hosts most. -/
theorem Grouped.hosted_le_fullest {groups : SortedMap String (List Instance)} (h : Grouped groups)
    {id : String} {group : List Instance} (hfullest : fullest groups.toList = some (id, group))
    (id' : String) : hosted (members groups) id' ≤ hosted (members groups) id := by
  obtain ⟨hmem, hmost⟩ := fullest_spec hfullest
  rw [h.hosted_members, h.hosted_members, SortedMap.mem_toList.1 hmem]
  cases hget : groups.get? id' with
  | none => exact Nat.zero_le _
  | some group' => exact hmost (id', group') (SortedMap.mem_toList.2 hget)

/-- An instance less on a node that hosts most keeps the instances level. -/
theorem Level.tail {i : Instance} {rest : List Instance} (h : Level ids (i :: rest))
    (hmost : ∀ id, hosted (i :: rest) id ≤ hosted (i :: rest) i.nodeId) : Level ids rest := by
  intro a ha b hb
  have hab := h a ha b hb
  have hle := hmost a
  rw [hosted_cons_self] at hle
  by_cases hai : a = i.nodeId <;> by_cases hbi : b = i.nodeId
  · rw [hai, hbi]
    exact Nat.le_succ _
  · rw [hosted_cons_of_ne hbi] at hab
    rw [hai, hosted_cons_self] at hab
    rw [hai]
    omega
  · rw [hosted_cons_of_ne hai] at hle
    rw [hbi]
    exact hle
  · rwa [hosted_cons_of_ne hai, hosted_cons_of_ne hbi] at hab

theorem exists_left_drain (n : Nat) {groups : SortedMap String (List Instance)}
    (hgrouped : Grouped groups) (h : Level ids (members groups)) :
    ∃ left, (members groups).Perm (drain n groups ++ left) ∧ Level ids left := by
  induction n generalizing groups with
  | zero => exact ⟨members groups, List.Perm.refl _, h⟩
  | succ n ih =>
    simp only [drain]
    split
    · next id oldest rest hfullest =>
      have hperm := members_of_fullest hfullest
      have hget := SortedMap.mem_toList.1 (fullest_spec hfullest).1
      have hgroup := hgrouped id _ hget
      have hmost := hgrouped.hosted_le_fullest hfullest
      have hlevel : Level ids (members (groups.insert id rest)) := by
        refine (h.of_perm hperm).tail fun id' => ?_
        rw [hgroup oldest List.mem_cons_self, ← hosted_of_perm hperm, ← hosted_of_perm hperm]
        exact hmost id'
      obtain ⟨left, hleft, hlevel⟩ := ih
        (hgrouped.insert fun i hi => hgroup i (List.mem_cons_of_mem _ hi)) hlevel
      exact ⟨left, hperm.trans (hleft.cons oldest), hlevel⟩
    · exact ⟨members groups, List.Perm.refl _, h⟩

/-- **What draining leaves is level.** -/
theorem exists_left_drainMostLoaded {instances : List Instance} (h : Level ids instances)
    (n : Nat) : ∃ left, instances.Perm (drainMostLoaded instances n ++ left) ∧ Level ids left := by
  have hperm := members_drainMostLoaded instances
  have hgrouped : Grouped (SortedMap.ofList ((groupByNode instances).toList.map
      fun e => (e.1, (newestToOldest e.2).reverse))) := by
    intro id group hget i hi
    obtain ⟨⟨id', group'⟩, hmem, heq⟩ := List.mem_map.1 (SortedMap.mem_of_get?_ofList hget)
    obtain ⟨rfl, rfl⟩ := Prod.mk.inj heq
    rw [List.mem_reverse, (newestToOldest_perm group').mem_iff] at hi
    exact grouped_groupByNode instances id' group' (SortedMap.mem_toList.1 hmem) i hi
  obtain ⟨left, hleft, hlevel⟩ :=
    exists_left_drain (min n instances.length) hgrouped (h.of_perm hperm.symm)
  exact ⟨left, hperm.symm.trans hleft, hlevel⟩

end Placement

end FleetControl
