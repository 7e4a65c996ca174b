import FleetControl.Placement.Selection
import FleetControl.Proofs.SortedMap
import Mathlib.Data.List.Perm.Subperm

/-!
# What victim policies choose

A victim policy asked for `n` instances of a list chooses `n` of them, or all if there are fewer,
and none twice:

* `VictimPolicy.choose_subperm` : the victims are instances of the list, each at most as often;
* `VictimPolicy.length_choose` : there are `min n` of the length of the list.

Draining takes one instance after the other from the fullest group. As long as an instance is left
the fullest group has one (`exists_fullest`), so the draining does not stop early.
-/

namespace FleetControl

namespace Placement

/-! ### Groups -/

/-- The instances of all groups together. -/
def members (groups : SortedMap String (List Instance)) : List Instance := groups.values.flatten

@[simp] theorem members_empty : members .empty = [] := rfl

theorem members_of_perm {groups : SortedMap String (List Instance)}
    {es : List (String × List Instance)} (h : groups.toList.Perm es) :
    (members groups).Perm (es.map (·.2)).flatten :=
  (h.map _).flatten

theorem members_insert (groups : SortedMap String (List Instance)) (id : String)
    (group : List Instance) :
    (members (groups.insert id group)).Perm (group ++ members (groups.erase id)) :=
  members_of_perm (groups.perm_insert id group)

theorem members_of_get? {groups : SortedMap String (List Instance)} {id : String}
    {group : List Instance} (h : groups.get? id = some group) :
    (members groups).Perm (group ++ members (groups.erase id)) :=
  members_of_perm (SortedMap.perm_cons_erase h)

theorem members_add (groups : SortedMap String (List Instance)) (i : Instance) :
    (members (groups.insert i.nodeId ((groups.get? i.nodeId).getD [] ++ [i]))).Perm
      (i :: members groups) := by
  refine (members_insert ..).trans ?_
  cases h : groups.get? i.nodeId with
  | none => rw [SortedMap.erase_of_get?_eq_none h]; exact List.Perm.refl _
  | some group =>
    rw [Option.getD_some, List.append_assoc]
    refine List.perm_middle.trans (List.Perm.cons _ ?_)
    exact (members_of_get? h).symm

theorem members_groupByNode (instances : List Instance) :
    (members (groupByNode instances)).Perm instances := by
  suffices h : ∀ groups : SortedMap String (List Instance),
      (members (instances.foldl (fun groups i =>
        groups.insert i.nodeId ((groups.get? i.nodeId).getD [] ++ [i])) groups)).Perm
        (instances ++ members groups) by
    have := h .empty
    rwa [members_empty, List.append_nil] at this
  induction instances with
  | nil => exact fun groups => List.Perm.refl _
  | cons i rest ih =>
    intro groups
    exact (ih _).trans (((members_add groups i).append_left rest).trans List.perm_middle)

/-! ### Draining -/

theorem fullest_eq_none_iff {groups : List (String × List Instance)} :
    fullest groups = none ↔ groups = [] := by
  cases groups with
  | nil => simp [fullest]
  | cons g rest =>
    simp only [fullest, reduceCtorEq, iff_false]
    cases fullest rest with
    | none => simp
    | some other => dsimp only; split <;> simp

/-- The fullest group is one of the groups and no other has more members. -/
theorem fullest_spec {groups : List (String × List Instance)} {g : String × List Instance}
    (h : fullest groups = some g) :
    g ∈ groups ∧ ∀ g' ∈ groups, g'.2.length ≤ g.2.length := by
  induction groups generalizing g with
  | nil => cases h
  | cons g₀ rest ih =>
    simp only [fullest] at h
    split at h
    · next other hother =>
      obtain ⟨hmem, hmax⟩ := ih hother
      split at h <;> rename_i hlt <;> obtain rfl := Option.some.inj h
      · refine ⟨List.mem_cons_of_mem _ hmem, fun g' hg' => ?_⟩
        rcases List.mem_cons.1 hg' with rfl | hg'
        · exact Nat.le_of_lt hlt
        · exact hmax g' hg'
      · refine ⟨List.mem_cons_self, fun g' hg' => ?_⟩
        rcases List.mem_cons.1 hg' with rfl | hg'
        · exact Nat.le_refl _
        · exact Nat.le_trans (hmax g' hg') (Nat.not_lt.1 hlt)
    · next hnone =>
      obtain rfl := Option.some.inj h
      rw [fullest_eq_none_iff.1 hnone]
      simp

/-- While an instance is left, the fullest group has a first member. -/
theorem exists_fullest {groups : SortedMap String (List Instance)} (h : members groups ≠ []) :
    ∃ id oldest rest, fullest groups.toList = some (id, oldest :: rest) := by
  cases hf : fullest groups.toList with
  | none =>
    have hnil : groups.toList = [] := fullest_eq_none_iff.1 hf
    exact absurd (show (groups.toList.map (·.2)).flatten = [] by simp [hnil]) h
  | some g =>
    obtain ⟨id, group⟩ := g
    cases group with
    | cons oldest rest => exact ⟨id, oldest, rest, rfl⟩
    | nil =>
      refine absurd (List.flatten_eq_nil_iff.2 fun l hl => ?_) h
      obtain ⟨g', hg', rfl⟩ := List.mem_map.1 hl
      exact List.length_eq_zero_iff.1 (Nat.le_zero.1 ((fullest_spec hf).2 g' hg'))

theorem members_of_fullest {groups : SortedMap String (List Instance)} {id : String}
    {oldest : Instance} {rest : List Instance}
    (h : fullest groups.toList = some (id, oldest :: rest)) :
    (members groups).Perm (oldest :: members (groups.insert id rest)) := by
  have hget := SortedMap.mem_toList.1 (fullest_spec h).1
  exact (members_of_get? hget).trans ((members_insert groups id rest).symm.cons oldest)

theorem drain_subperm (n : Nat) (groups : SortedMap String (List Instance)) :
    (drain n groups).Subperm (members groups) := by
  induction n generalizing groups with
  | zero => exact List.nil_subperm
  | succ n ih =>
    simp only [drain]
    split
    · next id oldest rest hf =>
      exact ((List.subperm_cons oldest).2 (ih (groups.insert id rest))).trans
        (members_of_fullest hf).symm.subperm
    · exact List.nil_subperm

theorem length_drain (n : Nat) (groups : SortedMap String (List Instance)) :
    (drain n groups).length = min n (members groups).length := by
  induction n generalizing groups with
  | zero => simp [drain]
  | succ n ih =>
    by_cases hm : members groups = []
    · have hlen := (drain_subperm (n + 1) groups).length_le
      rw [hm] at hlen ⊢
      simpa using hlen
    · obtain ⟨id, oldest, rest, hf⟩ := exists_fullest hm
      have hlen := (members_of_fullest hf).length_eq
      simp only [drain, hf, List.length_cons, ih] at hlen ⊢
      omega

/-! ### The policies -/

theorem newestToOldest_perm (instances : List Instance) :
    (newestToOldest instances).Perm instances :=
  List.mergeSort_perm ..

theorem flatten_map_perm {es : List (String × List Instance)} {f : List Instance → List Instance}
    (hf : ∀ group, (f group).Perm group) :
    (es.map fun e => f e.2).flatten.Perm (es.map (·.2)).flatten := by
  induction es with
  | nil => exact List.Perm.refl _
  | cons e es ih => simpa using (hf e.2).append ih

/-- The groups that `drainMostLoaded` drains hold the given instances. -/
theorem members_drainMostLoaded (instances : List Instance) :
    (members (SortedMap.ofList ((groupByNode instances).toList.map fun (nodeId, group) =>
      (nodeId, (newestToOldest group).reverse)))).Perm instances := by
  have hkeys : (((groupByNode instances).toList.map fun (nodeId, group) =>
      (nodeId, (newestToOldest group).reverse)).map (·.1)).Nodup := by
    rw [List.map_map]
    exact (groupByNode instances).nodup_keys
  refine (members_of_perm (SortedMap.perm_ofList hkeys)).trans ?_
  rw [List.map_map]
  have hsort (group : List Instance) : ((newestToOldest group).reverse).Perm group :=
    (List.reverse_perm _).trans (newestToOldest_perm group)
  exact (flatten_map_perm hsort).trans (members_groupByNode instances)

namespace VictimPolicy

theorem choose_subperm (policy : VictimPolicy) (instances : List Instance) (n : Nat) :
    (policy.choose instances n).Subperm instances := by
  cases policy with
  | mostLoadedOldestFirst =>
    exact (drain_subperm ..).trans (members_drainMostLoaded instances).subperm
  | newestFirst =>
    exact (List.take_sublist ..).subperm.trans (newestToOldest_perm instances).subperm

theorem length_choose (policy : VictimPolicy) (instances : List Instance) (n : Nat) :
    (policy.choose instances n).length = min n instances.length := by
  cases policy with
  | mostLoadedOldestFirst =>
    have hlen := (members_drainMostLoaded instances).length_eq
    simp only [choose, drainMostLoaded, length_drain, hlen]
    omega
  | newestFirst => simp [choose, newest, (newestToOldest_perm instances).length_eq]

end VictimPolicy

end Placement

end FleetControl
