import Mathlib.Algebra.BigOperators.Fin
import Mathlib.Algebra.BigOperators.Group.Finset.Basic
import Mathlib.Data.List.Nodup
import Mathlib.Data.List.Perm.Subperm

/-!
# Lists and sums

General facts about lists and sums that the library does not have in this form.
-/

namespace FleetControl.Lists

variable {α β M : Type}

/-! ### Pieces of a list -/

/-- Pieces of one length can be told apart when they stand one behind the other. -/
theorem flatMap_injective {f : α → List β} {n : Nat} (hlength : ∀ a, (f a).length = n + 1)
    (hf : Function.Injective f) : Function.Injective (List.flatMap f) := by
  have hne : ∀ a, f a ≠ [] := fun a => List.ne_nil_of_length_eq_add_one (hlength a)
  intro xs ys h
  induction xs generalizing ys with
  | nil =>
    cases ys with
    | nil => rfl
    | cons y ys => exact absurd (List.append_eq_nil_iff.1 h.symm).1 (hne y)
  | cons x xs ih =>
    cases ys with
    | nil => exact absurd (List.append_eq_nil_iff.1 h).1 (hne x)
    | cons y ys =>
      rw [List.flatMap_cons, List.flatMap_cons] at h
      obtain ⟨hhead, htail⟩ := List.append_inj h (by rw [hlength, hlength])
      rw [hf hhead, ih htail]

/-- What stands before the first separator, and what behind it. -/
theorem append_cons_inj {a : α} {x y s t : List α} (hx : a ∉ x) (hy : a ∉ y)
    (h : x ++ a :: s = y ++ a :: t) : x = y ∧ s = t := by
  -- one of the two begins with the other, and the separator would be in what it has beyond that
  rcases List.append_eq_append_iff.1 h with ⟨c, rfl, hc⟩ | ⟨c, rfl, hc⟩
  · cases c with
    | nil => simpa using hc
    | cons b c =>
      obtain ⟨rfl, -⟩ := List.cons.inj hc
      simp at hy
  · cases c with
    | nil => simpa using hc.symm
    | cons b c =>
      obtain ⟨rfl, -⟩ := List.cons.inj hc
      simp at hx

/-- A key that no entry had is found with the entry that is added for it. -/
theorem lookup_append_of_none {pre : List (String × α)} {key : String}
    (h : pre.lookup key = none) (a : α) : (pre ++ [(key, a)]).lookup key = some a := by
  rw [List.lookup_append, h, Option.none_or, List.lookup_cons_self]

/-- Among `n` places before `m` of which a property holds, one is `n` places or more before `m`. -/
theorem exists_early {q : α → Bool} {xs : List α} {n m : Nat} (hn : 0 < n)
    (hcount : n ≤ xs.countP q) (hlt : ∀ k x, xs[k]? = some x → q x → k < m) :
    ∃ k x, xs[k]? = some x ∧ q x ∧ k + n ≤ m := by
  by_contra hnone
  have hlate : ∀ k x, xs[k]? = some x → q x → m + 1 - n ≤ k := by
    intro k x hx hq
    by_contra hearly
    exact hnone ⟨k, x, hx, hq, by omega⟩
  -- otherwise all are among the places from `m + 1 - n` on and before `m`, which are too few
  have hle : xs.countP q ≤ m - (m + 1 - n) := by
    clear hcount hnone
    generalize m + 1 - n = least at hlate
    induction xs generalizing least m with
    | nil => exact Nat.zero_le _
    | cons x xs ih =>
      have hrest := ih (m := m - 1)
        (fun k y hy hq => by have := hlt (k + 1) y hy hq; omega) (least - 1)
        (fun k y hy hq => by have := hlate (k + 1) y hy hq; omega)
      by_cases hq : q x
      · have hzero := hlate 0 x rfl hq
        have hpos := hlt 0 x rfl hq
        rw [List.countP_cons_of_pos hq]
        omega
      · rw [List.countP_cons_of_neg hq]
        omega
  omega

/-! ### What is left of a list -/

section

variable [DecidableEq α]

theorem filter_notMem_append (xs ys zs : List α) :
    (xs.filter (· ∉ ys)).filter (· ∉ zs) = xs.filter (· ∉ ys ++ zs) := by
  rw [List.filter_filter]
  refine List.filter_congr fun a _ => ?_
  simp [Bool.and_comm]

theorem filter_ne_eq (xs : List α) (a : α) : xs.filter (· != a) = xs.filter (· ∉ [a]) := by
  refine List.filter_congr fun b _ => ?_
  rw [Bool.eq_iff_iff]
  simp

/-- What a list leaves beside some of its members. -/
theorem length_filter_notMem {xs ys : List α} (hxs : xs.Nodup) (hys : ys.Nodup) (hsub : ys ⊆ xs) :
    (xs.filter (· ∉ ys)).length + ys.length = xs.length := by
  have hcount := List.subperm_ext_iff.1 (hys.subperm hsub)
  have hlength := (List.subperm_append_diff_self_of_count_le hcount).length_eq
  rw [hxs.sdiff_eq_filter, List.length_append] at hlength
  omega

end

/-! ### Sums -/

section

variable [AddCommMonoid M]

/-- Sums over the places of a list. -/
theorem sum_range_getElem? (f : α → M) (l : List α) :
    ∑ i ∈ Finset.range l.length, (l[i]?).elim 0 f = (l.map f).sum := by
  rw [Finset.sum_range, ← Fin.sum_univ_fun_getElem]
  simp

theorem sum_map_filterMap (f : α → Option β) (g : β → M) (l : List α) :
    ((l.filterMap f).map g).sum = (l.map fun a => (f a).elim 0 g).sum := by
  induction l with
  | nil => rfl
  | cons a l ih =>
    cases hf : f a <;> simp [hf, ih]

/-- Sums of functions that differ in one place differ by what they have there. -/
theorem sum_add_of_ne {n : Finset Nat} {f g : Nat → M} {i : Nat} (hi : i ∈ n)
    (h : ∀ j ∈ n, j ≠ i → g j = f j) : ∑ j ∈ n, g j + f i = ∑ j ∈ n, f j + g i := by
  have hf := Finset.sum_erase_add n f hi
  have hg := Finset.sum_erase_add n g hi
  have hrest : ∑ j ∈ n.erase i, g j = ∑ j ∈ n.erase i, f j :=
    Finset.sum_congr rfl fun j hj => h j (Finset.mem_of_mem_erase hj) (Finset.ne_of_mem_erase hj)
  rw [← hf, ← hg, hrest]
  exact add_right_comm ..

end

end FleetControl.Lists
