import FleetControl.Proofs.Placement.Level
import FleetControl.Proofs.Placement.Sorting

/-!
# The order of victims

Draining looks for the fullest node again before every instance it takes. What it takes can be
said at once: give every instance its *level*, its place on its node counted from the newest, and
list the instances by level from above, then by node (`byLevel`); the victims are the head of this
list (`victims_by_level`).

* `Queued.pairwise_drain` : the instances are taken in the order of the levels. The first of the
  fullest group has the highest level that is left, and taking it changes the level of no other
  instance, because it is the oldest of its node (`Queued.level_next`).
* `eq_of_compareLevel` : no two instances are equal in this order, so there is one way to list
  them.
* `exists_left_balanced` : a node that loses an instance is left with at most one less than any
  other.
-/

namespace FleetControl

namespace Placement

/-! ### Levels -/

/-- Whether an instance `j` is on the node of `i` and newer. -/
def newerBeside (i j : Instance) : Bool := j.nodeId == i.nodeId && i.compareAge j == .lt

/-- The place of an instance among those of its node, counted from the newest. -/
def level (instances : List Instance) (i : Instance) : Nat := instances.countP (newerBeside i) + 1

/-- Order by level from above, then by node. -/
def compareLevel (instances : List Instance) (a b : Instance) : Ordering :=
  (compare (level instances b) (level instances a)).then (compare a.nodeId b.nodeId)

/-- The instances by level from above, then by node. -/
def byLevel (instances : List Instance) : List Instance :=
  instances.mergeSort fun a b => (compareLevel instances a b).isLE

instance (instances : List Instance) : Std.TransCmp (compareLevel instances) :=
  have : Std.TransCmp fun a b => compareOn (level instances) b a := Std.TransCmp.opposite
  inferInstanceAs (Std.TransCmp (compareLex (fun a b => compareOn (level instances) b a)
    (compareOn Instance.nodeId)))

variable {instances : List Instance}

theorem newerBeside_iff {i j : Instance} :
    newerBeside i j = true ↔ j.nodeId = i.nodeId ∧ i.compareAge j = .lt := by
  rw [newerBeside, Bool.and_eq_true, beq_iff_eq, beq_iff_eq]

theorem newerBeside_self (i : Instance) : ¬ newerBeside i i = true := fun h => by
  have hself : i.compareAge i = .eq := Std.ReflCmp.compare_self
  rw [(newerBeside_iff.1 h).2] at hself
  cases hself

theorem newerBeside_trans {a b c : Instance} (hab : newerBeside a b = true)
    (hbc : newerBeside b c = true) : newerBeside a c = true := by
  obtain ⟨hnode, hage⟩ := newerBeside_iff.1 hab
  obtain ⟨hnode', hage'⟩ := newerBeside_iff.1 hbc
  exact newerBeside_iff.2 ⟨hnode'.trans hnode, Std.TransCmp.lt_trans hage hage'⟩

theorem level_of_perm {xs ys : List Instance} (h : xs.Perm ys) (i : Instance) :
    level xs i = level ys i := congrArg (· + 1) (h.countP_eq _)

theorem compareLevel_of_perm {xs ys : List Instance} (h : xs.Perm ys) :
    compareLevel xs = compareLevel ys := by
  funext a b
  rw [compareLevel, compareLevel, level_of_perm h, level_of_perm h]

theorem countP_lt_countP {p q : Instance → Bool} {a : Instance}
    (hpq : ∀ x ∈ instances, p x = true → q x = true) (ha : a ∈ instances) (hp : ¬ p a = true)
    (hq : q a = true) : instances.countP p < instances.countP q := by
  have hperm := List.perm_cons_erase ha
  rw [hperm.countP_eq, hperm.countP_eq, List.countP_cons_of_neg hp, List.countP_cons_of_pos hq]
  exact Nat.lt_succ_of_le (List.countP_mono_left fun x hx => hpq x (List.mem_of_mem_erase hx))

/-- An older instance of a node has a higher level. -/
theorem level_lt_level {a b : Instance} (hb : b ∈ instances) (h : newerBeside a b = true) :
    level instances b < level instances a :=
  Nat.succ_lt_succ
    (countP_lt_countP (fun _ _ hx => newerBeside_trans h hx) hb (newerBeside_self b) h)

theorem level_le_hosted {i : Instance} (hi : i ∈ instances) :
    level instances i ≤ hosted instances i.nodeId :=
  countP_lt_countP (fun _ _ hx => beq_iff_eq.2 (newerBeside_iff.1 hx).1) hi (newerBeside_self i)
    (beq_self_eq_true _)

theorem eq_of_compareLevel (hnodup : (instances.map (·.id)).Nodup) {a b : Instance}
    (ha : a ∈ instances) (hb : b ∈ instances) (h : compareLevel instances a b = .eq) : a = b := by
  obtain ⟨hlevel, hnode⟩ := Ordering.then_eq_eq.1 h
  have hlevel := Nat.compare_eq_eq.1 hlevel
  have hnode := Std.LawfulEqCmp.eq_of_compare hnode
  cases hage : a.compareAge b with
  | eq => exact eq_of_compareAge hnodup ha hb hage
  | lt => exact absurd (level_lt_level hb (newerBeside_iff.2 ⟨hnode.symm, hage⟩)) (by omega)
  | gt =>
    have hage := Std.OrientedCmp.gt_iff_lt.1 hage
    exact absurd (level_lt_level ha (newerBeside_iff.2 ⟨hnode, hage⟩)) (by omega)

theorem byLevel_perm (instances : List Instance) : (byLevel instances).Perm instances :=
  List.mergeSort_perm ..

theorem pairwise_byLevel (instances : List Instance) :
    (byLevel instances).Pairwise fun a b => (compareLevel instances a b).isLE = true :=
  pairwise_sorted (compareLevel instances) instances

theorem byLevel_of_perm (hnodup : (instances.map (·.id)).Nodup) {ys : List Instance}
    (hperm : instances.Perm ys) : byLevel instances = byLevel ys := by
  rw [byLevel, byLevel, ← compareLevel_of_perm hperm]
  exact sorted_of_perm _ (fun a ha b hb => eq_of_compareLevel hnodup ha hb) hperm

/-! ### Draining in the order of the levels -/

/-- Of several groups with most members the first is drained. -/
theorem fullest_first {groups : List (String × List Instance)} {g : String × List Instance}
    (hascending : groups.Pairwise fun a b => compare a.1 b.1 = .lt)
    (h : fullest groups = some g) {g' : String × List Instance} (hg' : g' ∈ groups)
    (hlength : g'.2.length = g.2.length) : (compare g.1 g'.1).isLE = true := by
  induction groups generalizing g with
  | nil => cases h
  | cons g₀ rest ih =>
    obtain ⟨hhead, hrest⟩ := List.pairwise_cons.1 hascending
    -- the first group counts as drained if no later one is larger
    have hfirst (hg : g = g₀) : (compare g.1 g'.1).isLE = true := by
      subst hg
      rcases List.mem_cons.1 hg' with rfl | hg'
      · exact Std.ReflCmp.isLE_rfl
      · rw [hhead g' hg']; rfl
    simp only [fullest] at h
    split at h
    · next other hother =>
      split at h <;> rename_i hlt <;> obtain rfl := Option.some.inj h
      · rcases List.mem_cons.1 hg' with rfl | hg'
        · omega
        · exact ih hrest hother hg' hlength
      · exact hfirst rfl
    · exact hfirst (Option.some.inj h).symm

/-- Groups of instances of one node each, from the oldest to the newest. -/
structure Queued (groups : SortedMap String (List Instance)) : Prop where
  grouped : Grouped groups
  oldestFirst : ∀ id group, groups.get? id = some group →
    group.Pairwise fun a b => a.compareAge b = .lt

namespace Queued

variable {groups : SortedMap String (List Instance)} {id : String} {oldest : Instance}
  {rest : List Instance}

theorem insert (h : Queued groups) {group : List Instance} (hgroup : ∀ i ∈ group, i.nodeId = id)
    (hsorted : group.Pairwise fun a b => a.compareAge b = .lt) :
    Queued (groups.insert id group) := by
  refine ⟨h.grouped.insert hgroup, fun id' group' hget => ?_⟩
  by_cases hid : id' = id
  · rw [hid, SortedMap.get?_insert_self, Option.some.injEq] at hget
    rw [← hget]
    exact hsorted
  · rw [SortedMap.get?_insert_of_ne hid] at hget
    exact h.oldestFirst id' group' hget

theorem nodeId_next (h : Queued groups) (hfullest : fullest groups.toList = some (id, oldest :: rest)) :
    oldest.nodeId = id :=
  h.grouped id _ (SortedMap.mem_toList.1 (fullest_spec hfullest).1) oldest List.mem_cons_self

theorem next (h : Queued groups) (hfullest : fullest groups.toList = some (id, oldest :: rest)) :
    Queued (groups.insert id rest) := by
  have hget := SortedMap.mem_toList.1 (fullest_spec hfullest).1
  exact h.insert (fun i hi => h.grouped id _ hget i (List.mem_cons_of_mem _ hi))
    (List.pairwise_cons.1 (h.oldestFirst id _ hget)).2

/-- The instances left on the node of the one that is taken are newer. -/
theorem newer_next (h : Queued groups)
    (hfullest : fullest groups.toList = some (id, oldest :: rest)) {i : Instance}
    (hi : i ∈ members (groups.insert id rest)) (hnode : i.nodeId = id) :
    oldest.compareAge i = .lt := by
  have hget := SortedMap.mem_toList.1 (fullest_spec hfullest).1
  obtain ⟨group, hgroup, hmem⟩ := List.mem_flatten.1 hi
  obtain ⟨id', hget'⟩ := SortedMap.mem_values.1 hgroup
  obtain rfl : id' = id := ((h.next hfullest).grouped id' group hget' i hmem).symm.trans hnode
  rw [SortedMap.get?_insert_self, Option.some.injEq] at hget'
  exact (List.pairwise_cons.1 (h.oldestFirst id' _ hget)).1 i (hget' ▸ hmem)

/-- Taking the oldest instance of a node changes the level of no other instance. -/
theorem level_next (h : Queued groups)
    (hfullest : fullest groups.toList = some (id, oldest :: rest)) {i : Instance}
    (hi : i ∈ members (groups.insert id rest)) :
    level (members groups) i = level (members (groups.insert id rest)) i := by
  have hnotnewer : ¬ newerBeside i oldest = true := fun hnewer => by
    obtain ⟨hnode, hage⟩ := newerBeside_iff.1 hnewer
    have holder := h.newer_next hfullest hi (hnode.symm.trans (h.nodeId_next hfullest))
    exact newerBeside_self i (newerBeside_iff.2 ⟨rfl, Std.TransCmp.lt_trans hage holder⟩)
  rw [level_of_perm (members_of_fullest hfullest), level, level,
    List.countP_cons_of_neg hnotnewer]

/-- The oldest instance of a node has the highest level of the node. -/
theorem level_oldest (h : Queued groups)
    (hfullest : fullest groups.toList = some (id, oldest :: rest)) :
    level (members groups) oldest = hosted (members groups) id := by
  have hnode := h.nodeId_next hfullest
  have hperm := members_of_fullest hfullest
  have hbeside : ∀ i ∈ members (groups.insert id rest),
      newerBeside oldest i = true ↔ (i.nodeId == id) = true := fun i hi => by
    rw [newerBeside_iff, beq_iff_eq, hnode]
    exact ⟨And.left, fun hid => ⟨hid, h.newer_next hfullest hi hid⟩⟩
  rw [level_of_perm hperm, hosted_of_perm hperm, ← hnode, hosted_cons_self, level,
    List.countP_cons_of_neg (newerBeside_self oldest), hnode, hosted, List.countP_congr hbeside]

/-- The instance that is taken comes first in the order of the levels. -/
theorem compareLevel_next (h : Queued groups)
    (hfullest : fullest groups.toList = some (id, oldest :: rest)) {i : Instance}
    (hi : i ∈ members groups) : (compareLevel (members groups) oldest i).isLE = true := by
  obtain ⟨hmem, -⟩ := fullest_spec hfullest
  have hmost := h.grouped.hosted_le_fullest hfullest i.nodeId
  have hlevel := level_le_hosted hi
  rw [compareLevel, h.level_oldest hfullest, h.nodeId_next hfullest]
  rcases Nat.lt_or_ge (level (members groups) i) (hosted (members groups) id) with hlt | hge
  · rw [Nat.compare_eq_lt.2 hlt]
    rfl
  · -- the node of `i` hosts as many, so it comes after the one that is drained
    have hequal : hosted (members groups) i.nodeId = hosted (members groups) id := by omega
    rw [Nat.compare_eq_eq.2 (show level (members groups) i = hosted (members groups) id by omega)]
    rw [h.grouped.hosted_members, h.grouped.hosted_members, SortedMap.mem_toList.1 hmem] at hequal
    cases hget : groups.get? i.nodeId with
    | none => rw [hget] at hequal; cases hequal
    | some group =>
      rw [hget] at hequal
      exact fullest_first groups.ascending hfullest (SortedMap.mem_toList.2 hget) hequal

theorem pairwise_drain (h : Queued groups) (n : Nat) :
    (drain n groups).Pairwise fun a b => (compareLevel (members groups) a b).isLE = true := by
  induction n generalizing groups with
  | zero => exact List.Pairwise.nil
  | succ n ih =>
    simp only [drain]
    split
    · next id oldest rest hfullest =>
      have hsub := (drain_subperm n (groups.insert id rest)).subset
      refine List.pairwise_cons.2 ⟨fun i hi => ?_, ?_⟩
      · exact h.compareLevel_next hfullest
          ((members_of_fullest hfullest).mem_iff.2 (List.mem_cons_of_mem _ (hsub hi)))
      · refine List.Pairwise.imp_of_mem (fun {a b} ha hb hle => ?_) (ih (h.next hfullest))
        rwa [compareLevel, h.level_next hfullest (hsub ha), h.level_next hfullest (hsub hb)]
    · exact List.Pairwise.nil

end Queued

/-- Draining for longer takes more, and the same before. -/
theorem take_drain {n m : Nat} (h : n ≤ m) (groups : SortedMap String (List Instance)) :
    (drain m groups).take n = drain n groups := by
  induction n generalizing m groups with
  | zero => rw [List.take_zero]; rfl
  | succ n ih =>
    obtain ⟨m, rfl⟩ : ∃ k, m = k + 1 := ⟨m - 1, by omega⟩
    simp only [drain]
    split
    · rw [List.take_succ_cons, ih (Nat.le_of_succ_le_succ h)]
    · exact List.take_nil

/-- The groups of instances that are drained. -/
def queues (instances : List Instance) : SortedMap String (List Instance) :=
  SortedMap.ofList ((groupByNode instances).toList.map fun (nodeId, group) =>
    (nodeId, (newestToOldest group).reverse))

theorem queued_queues (hnodup : (instances.map (·.id)).Nodup) : Queued (queues instances) := by
  have hgroups {id : String} {group : List Instance} (hget : (queues instances).get? id = some group) :
      ∃ members, (groupByNode instances).get? id = some members ∧
        group = (newestToOldest members).reverse := by
    obtain ⟨⟨id', members⟩, hmem, heq⟩ := List.mem_map.1 (SortedMap.mem_of_get?_ofList hget)
    obtain ⟨rfl, rfl⟩ := Prod.mk.inj heq
    exact ⟨members, SortedMap.mem_toList.1 hmem, rfl⟩
  constructor
  · intro id group hget i hi
    obtain ⟨members, hmembers, rfl⟩ := hgroups hget
    rw [List.mem_reverse, (newestToOldest_perm members).mem_iff] at hi
    exact grouped_groupByNode instances id members hmembers i hi
  · intro id group hget
    obtain ⟨group', hgroup', rfl⟩ := hgroups hget
    refine pairwise_reverse_newestToOldest ?_
    have hids := ((members_groupByNode instances).map (·.id)).nodup_iff.2 hnodup
    rw [((members_of_get? hgroup').map (·.id)).nodup_iff, List.map_append] at hids
    exact (List.nodup_append.1 hids).1

theorem members_queues (instances : List Instance) : (members (queues instances)).Perm instances :=
  members_drainMostLoaded instances

theorem length_drain_queues (n : Nat) (instances : List Instance) :
    (drain n (queues instances)).length = min n instances.length := by
  rw [length_drain, (members_queues instances).length_eq]

/-- Draining ends when nothing is left, and not by a bound on the number of victims. -/
theorem drain_queues (n : Nat) (instances : List Instance) :
    drain n (queues instances) = drainMostLoaded instances n := by
  rw [← List.take_of_length_le (Nat.le_of_eq (length_drain_queues n instances)),
    take_drain (Nat.min_le_left ..)]
  rfl

/-- **Draining everything lists the instances in the order of the levels.** -/
theorem drain_all (hnodup : (instances.map (·.id)).Nodup) :
    drain instances.length (queues instances) = byLevel instances := by
  have hmembers := members_queues instances
  have hlength := length_drain_queues instances.length instances
  rw [Nat.min_self] at hlength
  have hperm : (drain instances.length (queues instances)).Perm instances :=
    ((drain_subperm ..).trans hmembers.subperm).perm_of_length_le (Nat.le_of_eq hlength.symm)
  have hsorted := (queued_queues hnodup).pairwise_drain instances.length
  rw [compareLevel_of_perm hmembers] at hsorted
  refine eq_of_sorted (compareLevel instances) (fun a ha b hb => ?_) hsorted
    (pairwise_byLevel instances) (hperm.trans (byLevel_perm instances).symm)
  exact eq_of_compareLevel hnodup (hperm.mem_iff.1 ha) (hperm.mem_iff.1 hb)

theorem drainMostLoaded_eq (hnodup : (instances.map (·.id)).Nodup) (n : Nat) :
    drainMostLoaded instances n = (byLevel instances).take n := by
  have hlength := (byLevel_perm instances).length_eq
  rw [← drain_all hnodup] at hlength ⊢
  rw [List.take_eq_take_min, hlength]
  exact (take_drain (Nat.min_le_right ..) _).symm

theorem drainMostLoaded_of_perm (hnodup : (instances.map (·.id)).Nodup) {ys : List Instance}
    (hperm : instances.Perm ys) (n : Nat) : drainMostLoaded instances n = drainMostLoaded ys n := by
  rw [drainMostLoaded_eq hnodup, drainMostLoaded_eq ((hperm.map _).nodup_iff.1 hnodup),
    byLevel_of_perm hnodup hperm]

/-! ### What is left -/

/-- A node that loses an instance is left with at most one less than any other. -/
theorem exists_left_balanced (n : Nat) {groups : SortedMap String (List Instance)}
    (h : Queued groups) : ∃ left, (members groups).Perm (drain n groups ++ left) ∧
      ∀ victim ∈ drain n groups, ∀ id, hosted left id ≤ hosted left victim.nodeId + 1 := by
  induction n generalizing groups with
  | zero => exact ⟨members groups, List.Perm.refl _, fun victim hvictim => by cases hvictim⟩
  | succ n ih =>
    simp only [drain]
    split
    · next id oldest rest hfullest =>
      have hperm := members_of_fullest hfullest
      have hnode := h.nodeId_next hfullest
      obtain ⟨left, hleft, hbalanced⟩ := ih (h.next hfullest)
      refine ⟨left, hperm.trans (hleft.cons oldest), fun victim hvictim id' => ?_⟩
      rcases List.mem_cons.1 hvictim with rfl | hvictim
      · by_cases hlater : ∃ v ∈ drain n (groups.insert id rest), v.nodeId = id
        · obtain ⟨v, hv, hid⟩ := hlater
          rw [hnode, ← hid]
          exact hbalanced v hv id'
        · -- the node hosted most and loses no other instance
          have hnone : hosted (drain n (groups.insert id rest)) id = 0 :=
            List.countP_eq_zero.2 fun v hv hid => hlater ⟨v, hv, beq_iff_eq.1 hid⟩
          have hmost := h.grouped.hosted_le_fullest hfullest id'
          rw [hosted_of_perm hperm, hosted_of_perm hperm] at hmost
          have hself := hosted_cons_self victim (members (groups.insert id rest))
          have hid := hosted_of_perm hleft id
          have hid' : hosted left id' ≤ hosted (victim :: members (groups.insert id rest)) id' := by
            rw [hosted_of_perm (hleft.cons victim)]
            exact ((List.sublist_append_right _ left).cons victim).countP_le
          rw [hosted_append, hnone] at hid
          rw [hnode] at hself ⊢
          omega
      · exact hbalanced victim hvictim id'
    · exact ⟨members groups, List.Perm.refl _, fun victim hvictim => by cases hvictim⟩

/-- What a list of distinct instances leaves beside some of them. -/
theorem filter_not_mem_perm {victims left : List Instance} (hnodup : instances.Nodup)
    (hperm : instances.Perm (victims ++ left)) : (instances.filter (· ∉ victims)).Perm left := by
  have hdisjoint := (List.nodup_append.1 (hperm.nodup_iff.1 hnodup)).2.2
  have hvictims : victims.filter (· ∉ victims) = [] :=
    List.filter_eq_nil_iff.2 fun v hv => by simpa using hv
  have hleft : left.filter (· ∉ victims) = left :=
    List.filter_eq_self.2 fun i hi => decide_eq_true fun hv => hdisjoint i hv i hi rfl
  have := hperm.filter (· ∉ victims)
  rwa [List.filter_append, hvictims, hleft, List.nil_append] at this

/-- What is promised of `n` victims of a list of instances under
`VictimPolicy.mostLoadedOldestFirst`. -/
structure TakenByLevel (instances : List Instance) (n : Nat) (victims : List Instance) : Prop where
  /-- They are the head of the instances by level. -/
  head : victims = (byLevel instances).take (min n instances.length)
  /-- The search for them ends when nothing is left. -/
  ends : drain n (queues instances) = victims
  /-- One more victim is taken after them. -/
  grows : victims <+: VictimPolicy.mostLoadedOldestFirst.choose instances (n + 1)
  /-- It does not matter in which order the instances are listed. -/
  unordered : ∀ instances', instances.Perm instances' →
    VictimPolicy.mostLoadedOldestFirst.choose instances' n = victims
  /-- None is taken twice. -/
  once : (victims.map (·.id)).Nodup
  /-- On every node the oldest are taken. -/
  oldest : ∀ victim ∈ victims, ∀ i ∈ instances, i.nodeId = victim.nodeId →
    i.compareAge victim = .lt → i ∈ victims
  /-- A node that loses an instance is left with at most one less than any other. -/
  balanced : ∀ victim ∈ victims, ∀ nodeId, hosted (instances.filter (· ∉ victims)) nodeId ≤
    hosted (instances.filter (· ∉ victims)) victim.nodeId + 1

/-- **The victims are the head of the instances by level.** Searching for the fullest node before
every victim comes to one sorted list, of which more or fewer are taken. -/
theorem victims_by_level {instances : List Instance} (hnodup : (instances.map (·.id)).Nodup)
    (n : Nat) :
    TakenByLevel instances n (VictimPolicy.mostLoadedOldestFirst.choose instances n) where
  head := by
    rw [← (byLevel_perm instances).length_eq, ← List.take_eq_take_min]
    exact drainMostLoaded_eq hnodup n
  ends := drain_queues n instances
  grows := by
    show drainMostLoaded instances n <+: drainMostLoaded instances (n + 1)
    rw [drainMostLoaded_eq hnodup, drainMostLoaded_eq hnodup]
    exact List.take_prefix_take_left (Nat.le_succ n)
  unordered _ hperm := (drainMostLoaded_of_perm hnodup hperm n).symm
  once := by
    obtain ⟨l, hl, hsub⟩ := VictimPolicy.choose_subperm .mostLoadedOldestFirst instances n
    exact (hl.map _).nodup_iff.1 (hnodup.sublist (hsub.map _))
  oldest victim hvictim i hi hnode hage := by
    rw [VictimPolicy.choose, drainMostLoaded_eq hnodup] at hvictim ⊢
    have hmem := (byLevel_perm instances).mem_iff.2 hi
    have hsorted := pairwise_byLevel instances
    rw [← List.take_append_drop n (byLevel instances)] at hmem hsorted
    refine (List.mem_append.1 hmem).resolve_right fun hbehind => ?_
    -- the older instance has a higher level and would not come behind
    have hle := (List.pairwise_append.1 hsorted).2.2 victim hvictim i hbehind
    have hlt := level_lt_level ((byLevel_perm instances).mem_iff.1 (List.mem_of_mem_take hvictim))
      (newerBeside_iff.2 ⟨hnode.symm, hage⟩)
    rw [compareLevel, Nat.compare_eq_gt.2 hlt] at hle
    cases hle
  balanced := by
    obtain ⟨left, hleft, hbalanced⟩ :=
      exists_left_balanced (min n instances.length) (queued_queues hnodup)
    have hperm := filter_not_mem_perm hnodup.of_map
      ((members_queues instances).symm.trans hleft)
    intro victim hvictim nodeId
    show hosted (instances.filter (· ∉ drain (min n instances.length) (queues instances))) nodeId ≤
      hosted (instances.filter (· ∉ drain (min n instances.length) (queues instances)))
        victim.nodeId + 1
    rw [hosted_of_perm hperm, hosted_of_perm hperm]
    exact hbalanced victim hvictim nodeId

/-- Five instances on three nodes. -/
def fiveInstances : List Instance :=
  [⟨"a1", "a", "ctr-a1", "fp", 100, 1⟩, ⟨"b1", "b", "ctr-b1", "fp", 90, 2⟩,
    ⟨"b2", "b", "ctr-b2", "fp", 110, 3⟩, ⟨"b3", "b", "ctr-b3", "fp", 120, 4⟩,
    ⟨"c1", "c", "ctr-c1", "fp", 80, 5⟩]

theorem victims_by_level_fiveInstances : (fiveInstances.map (·.id)).Nodup ∧
    TakenByLevel fiveInstances 3
      (VictimPolicy.mostLoadedOldestFirst.choose fiveInstances 3) :=
  ⟨by decide, victims_by_level (by decide) 3⟩

end Placement

end FleetControl
