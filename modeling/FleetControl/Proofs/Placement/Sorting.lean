import FleetControl.Proofs.Placement.Victims

/-!
# Sorted lists of instances and nodes

Placement sorts by orders that may call two members equal. Sorting by an order gives a list in
that order (`pairwise_sorted`), and there is only one such list with the same members if no two of
them are equal in the order (`eq_of_sorted`); so the result does not depend on the order in which
the members were given (`sorted_of_perm`).

Instances with distinct ids are never of one age (`eq_of_compareAge`), so there is one way to list
them from the newest to the oldest (`newestToOldest_of_perm`).
-/

namespace FleetControl

namespace Placement

/-! ### Sorting by an order -/

section Sorting

variable {α : Type} (order : α → α → Ordering) [Std.TransCmp order]

theorem pairwise_sorted (xs : List α) :
    (xs.mergeSort fun a b => (order a b).isLE).Pairwise fun a b => (order a b).isLE = true := by
  refine List.pairwise_mergeSort (fun _ _ _ => Std.TransCmp.isLE_trans) (fun a b => ?_) xs
  have hswap : (order a b).isGE = (order b a).isLE := Std.OrientedCmp.isGE_eq_isLE
  rw [← hswap]
  cases order a b <;> rfl

theorem eq_of_isLE {a b : α} (hab : (order a b).isLE = true) (hba : (order b a).isLE = true) :
    order a b = .eq := by
  have hge : (order a b).isGE = true := Std.OrientedCmp.isGE_eq_isLE.trans hba
  cases hcmp : order a b with
  | eq => rfl
  | lt => rw [hcmp] at hge; cases hge
  | gt => rw [hcmp] at hab; cases hab

/-- Of the lists with the same members, none equal in the order, only one is sorted. -/
theorem eq_of_sorted {xs ys : List α} (hdistinct : ∀ a ∈ xs, ∀ b ∈ xs, order a b = .eq → a = b)
    (hxs : xs.Pairwise fun a b => (order a b).isLE = true)
    (hys : ys.Pairwise fun a b => (order a b).isLE = true) (hperm : xs.Perm ys) : xs = ys :=
  hperm.eq_of_pairwise
    (fun a b ha hb hab hba => hdistinct a ha b (hperm.mem_iff.2 hb) (eq_of_isLE order hab hba)) hxs hys

omit [Std.TransCmp order] in
/-- A list sorted by an order that tells its members apart ascends strictly. -/
theorem pairwise_lt_of_sorted {xs : List α} (hxs : xs.Pairwise fun a b => (order a b).isLE = true)
    (hdistinct : xs.Pairwise fun a b => order a b ≠ .eq) :
    xs.Pairwise fun a b => order a b = .lt := by
  refine List.Pairwise.imp₂ (fun a b hle hne => ?_) hxs hdistinct
  cases hcmp : order a b with
  | lt => rfl
  | eq => exact absurd hcmp hne
  | gt => rw [hcmp] at hle; cases hle

theorem sorted_of_perm {xs ys : List α}
    (hdistinct : ∀ a ∈ xs, ∀ b ∈ xs, order a b = .eq → a = b) (hperm : xs.Perm ys) :
    (xs.mergeSort fun a b => (order a b).isLE) = ys.mergeSort fun a b => (order a b).isLE := by
  have hxs := List.mergeSort_perm xs fun a b => (order a b).isLE
  have hys := List.mergeSort_perm ys fun a b => (order a b).isLE
  refine eq_of_sorted order (fun a ha b hb => hdistinct a ?_ b ?_)
    (pairwise_sorted order xs) (pairwise_sorted order ys) (hxs.trans (hperm.trans hys.symm))
  · exact hxs.mem_iff.1 ha
  · exact hxs.mem_iff.1 hb

end Sorting

/-! ### Ages -/

instance : Std.TransCmp Instance.compareAge :=
  inferInstanceAs (Std.TransCmp (compareLex (compareOn Instance.createdAt)
    (compareLex (compareOn Instance.seq) (compareOn Instance.id))))

instance : Std.TransCmp fun a b => Instance.compareAge b a := Std.TransCmp.opposite

/-- Instances of one age have one id. -/
theorem id_of_compareAge {a b : Instance} (h : a.compareAge b = .eq) : a.id = b.id := by
  simp only [Instance.compareAge, Ordering.then_eq_eq] at h
  exact Std.LawfulEqCmp.eq_of_compare h.2.2

theorem eq_of_compareAge {instances : List Instance} (hnodup : (instances.map (·.id)).Nodup)
    {a b : Instance} (ha : a ∈ instances) (hb : b ∈ instances) (h : a.compareAge b = .eq) : a = b :=
  List.inj_on_of_nodup_map hnodup ha hb (id_of_compareAge h)

theorem newestToOldest_of_perm {xs ys : List Instance} (hnodup : (xs.map (·.id)).Nodup)
    (hperm : xs.Perm ys) : newestToOldest xs = newestToOldest ys := by
  exact sorted_of_perm (fun a b => Instance.compareAge b a)
    (fun a ha b hb h => (eq_of_compareAge hnodup hb ha h).symm) hperm

/-- Read from behind, instances listed from the newest are listed from the oldest. -/
theorem pairwise_reverse_newestToOldest {instances : List Instance}
    (hnodup : (instances.map (·.id)).Nodup) :
    (newestToOldest instances).reverse.Pairwise fun a b => a.compareAge b = .lt := by
  have hids : (newestToOldest instances).Pairwise fun a b => a.id ≠ b.id :=
    List.pairwise_map.1 (((newestToOldest_perm instances).map Instance.id).nodup_iff.2 hnodup)
  rw [List.pairwise_reverse]
  exact pairwise_lt_of_sorted (fun a b => Instance.compareAge b a)
    (pairwise_sorted (fun a b => Instance.compareAge b a) instances)
    (hids.imp fun hne heq => hne (id_of_compareAge heq).symm)

end Placement

end FleetControl
