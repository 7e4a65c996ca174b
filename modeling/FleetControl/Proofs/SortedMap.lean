import FleetControl.SortedMap
import Mathlib.Data.List.Nodup
import Mathlib.Data.List.Perm.Basic

/-!
# Look-up and entries of sorted maps

The entries of a sorted map and its look-up function say the same (`mem_toList`), and every
operation changes the entries as it changes the function, up to the order of the entries:

* `perm_insert` and `perm_cons_erase` : an insertion adds one entry to those of the other keys;
* `perm_ofList` : a list of entries with distinct keys keeps all of them;
* `get?_erase`, `get?_modify`, `get?_overlay` : the operations seen through look-up.
-/

namespace FleetControl

namespace SortedMap

variable {κ ν : Type} [Ord κ] [Std.TransOrd κ] [Std.LawfulEqOrd κ]

/-! ### Entry lists -/

omit [Std.LawfulEqOrd κ] in
theorem ne_of_compare_lt {a b : κ} (h : compare a b = .lt) : a ≠ b := by
  rintro rfl
  simp at h

omit [Std.LawfulEqOrd κ] in
/-- Two lists in strictly ascending order with the same elements are equal. -/
theorem eq_of_ascending {α : Type} (key : α → κ) {xs ys : List α}
    (hxs : xs.Pairwise fun a b => compare (key a) (key b) = .lt)
    (hys : ys.Pairwise fun a b => compare (key a) (key b) = .lt) (h : ∀ x, x ∈ xs ↔ x ∈ ys) :
    xs = ys := by
  have hne {a b : α} (hab : compare (key a) (key b) = .lt) : a ≠ b := fun heq =>
    ne_of_compare_lt hab (congrArg key heq)
  have hperm := (List.perm_ext_iff_of_nodup (hxs.imp hne) (hys.imp hne)).2 h
  refine hperm.eq_of_pairwise (fun a b _ _ hab hba => ?_) hxs hys
  rw [Std.OrientedCmp.gt_of_lt hab] at hba
  cases hba

omit [Std.TransOrd κ] in
theorem mem_of_lookupEntry {k : κ} {v : ν} {es : List (κ × ν)} (h : lookupEntry k es = some v) :
    (k, v) ∈ es := by
  induction es with
  | nil => cases h
  | cons e es ih =>
    obtain ⟨k', v'⟩ := e
    simp only [lookupEntry] at h
    split at h
    · rename_i hk
      obtain rfl := Std.LawfulEqCmp.eq_of_compare hk
      simp only [Option.some.injEq] at h
      simp [h]
    · exact List.mem_cons_of_mem _ (ih h)

theorem lookupEntry_of_mem {k : κ} {v : ν} {es : List (κ × ν)}
    (hes : es.Pairwise fun a b => compare a.1 b.1 = .lt) (h : (k, v) ∈ es) :
    lookupEntry k es = some v := by
  induction es with
  | nil => cases h
  | cons e es ih =>
    obtain ⟨he, hes⟩ := List.pairwise_cons.1 hes
    rcases List.mem_cons.1 h with rfl | h
    · simp [lookupEntry]
    · have hne : compare k e.1 ≠ .eq := by
        intro hk
        exact ne_of_compare_lt (he _ h) (Std.LawfulEqCmp.eq_of_compare hk).symm
      simp [lookupEntry, hne, ih hes h]

omit [Std.TransOrd κ] in
theorem lookupEntry_filter (p : κ → Bool) (q : κ) (es : List (κ × ν)) :
    lookupEntry q (es.filter fun e => p e.1) = if p q then lookupEntry q es else none := by
  induction es with
  | nil => simp [lookupEntry]
  | cons e es ih =>
    obtain ⟨k, v⟩ := e
    by_cases hk : compare q k = .eq
    · obtain rfl := Std.LawfulEqCmp.eq_of_compare hk
      by_cases hp : p q <;> simp [lookupEntry, hp, ih]
    · by_cases hp : p k <;> simp [lookupEntry, hp, hk, ih]

theorem perm_insertEntry (k : κ) (v : ν) {es : List (κ × ν)}
    (hes : es.Pairwise fun a b => compare a.1 b.1 = .lt) :
    (insertEntry k v es).Perm ((k, v) :: es.filter fun e => compare k e.1 != .eq) := by
  induction es with
  | nil => simp [insertEntry]
  | cons e es ih =>
    obtain ⟨k', v'⟩ := e
    obtain ⟨he, hes'⟩ := List.pairwise_cons.1 hes
    -- the keys behind one that is not smaller than `k` differ from `k`
    have hall (hlt : ∀ e ∈ es, compare k e.1 = .lt) :
        (es.filter fun e => compare k e.1 != .eq) = es :=
      List.filter_eq_self.2 fun e h => by simp [hlt e h]
    simp only [insertEntry]
    split
    case h_1 hlt =>
      have hlt' : ∀ e ∈ es, compare k e.1 = .lt := fun e h => Std.TransCmp.lt_trans hlt (he e h)
      simp [hlt, hall hlt']
    case h_2 heq =>
      obtain rfl := Std.LawfulEqCmp.eq_of_compare heq
      simp [hall he]
    case h_3 hgt =>
      have hkeep : (compare k k' != .eq) = true := by simp [hgt]
      rw [List.filter_cons_of_pos (by simpa using hkeep)]
      exact ((ih hes').cons _).trans (List.Perm.swap ..)

/-! ### Look-up -/

theorem mem_toList {m : SortedMap κ ν} {k : κ} {v : ν} : (k, v) ∈ m.toList ↔ m.get? k = some v :=
  ⟨lookupEntry_of_mem m.ascending, mem_of_lookupEntry⟩

theorem mem_values {m : SortedMap κ ν} {v : ν} : v ∈ m.values ↔ ∃ k, m.get? k = some v := by
  simp only [values, List.mem_map, Prod.exists, exists_eq_right]
  exact exists_congr fun k => mem_toList

theorem mem_keys {m : SortedMap κ ν} {k : κ} : k ∈ m.keys ↔ ∃ v, m.get? k = some v := by
  simp only [keys, List.mem_map, Prod.exists, exists_and_right, exists_eq_right]
  exact exists_congr fun v => mem_toList

omit [Std.LawfulEqOrd κ] in
theorem nodup_keys (m : SortedMap κ ν) : m.keys.Nodup :=
  List.pairwise_map.2 (m.ascending.imp ne_of_compare_lt)

theorem get?_insert_self (m : SortedMap κ ν) (k : κ) (v : ν) : (m.insert k v).get? k = some v := by
  simp [get?_insert]

theorem get?_insert_of_ne {m : SortedMap κ ν} {k q : κ} {v : ν} (h : q ≠ k) :
    (m.insert k v).get? q = m.get? q := by
  have : compare q k ≠ .eq := fun hc => h (Std.LawfulEqCmp.eq_of_compare hc)
  simp [get?_insert, this]

omit [Std.TransOrd κ] in
theorem get?_erase [DecidableEq κ] (m : SortedMap κ ν) (k q : κ) :
    (m.erase k).get? q = if q = k then none else m.get? q := by
  have h := lookupEntry_filter (fun x => compare k x != .eq) q m.entries
  by_cases hq : q = k
  · subst hq
    simpa [erase, get?] using h
  · have hc : compare k q ≠ .eq := fun hc => hq (Std.LawfulEqCmp.eq_of_compare hc).symm
    simpa [erase, get?, hq, hc] using h

theorem get?_modify [DecidableEq κ] (m : SortedMap κ ν) (k q : κ) (f : ν → ν) :
    (m.modify k f).get? q = if q = k then (m.get? q).map f else m.get? q := by
  unfold modify
  by_cases hq : q = k
  · subst hq
    cases h : m.get? q <;> simp [h, get?_insert_self]
  · cases h : m.get? k <;> simp [hq, get?_insert_of_ne hq]

/-! ### Entries -/

theorem perm_insert (m : SortedMap κ ν) (k : κ) (v : ν) :
    (m.insert k v).toList.Perm ((k, v) :: (m.erase k).toList) :=
  perm_insertEntry k v m.ascending

theorem erase_of_get?_eq_none {m : SortedMap κ ν} {k : κ} (h : m.get? k = none) :
    m.erase k = m := by
  classical
  refine ext_get? fun q => ?_
  rw [get?_erase]
  split
  · next hq => rw [hq, h]
  · rfl

theorem insert_of_get?_eq_some {m : SortedMap κ ν} {k : κ} {v : ν} (h : m.get? k = some v) :
    m.insert k v = m := by
  classical
  refine ext_get? fun q => ?_
  by_cases hq : q = k
  · rw [hq, get?_insert_self, h]
  · rw [get?_insert_of_ne hq]

theorem perm_cons_erase {m : SortedMap κ ν} {k : κ} {v : ν} (h : m.get? k = some v) :
    m.toList.Perm ((k, v) :: (m.erase k).toList) := by
  have := perm_insert m k v
  rwa [insert_of_get?_eq_some h] at this

theorem perm_insert_of_get?_eq_none {m : SortedMap κ ν} {k : κ} (v : ν) (h : m.get? k = none) :
    (m.insert k v).toList.Perm ((k, v) :: m.toList) := by
  have := perm_insert m k v
  rwa [erase_of_get?_eq_none h] at this

theorem perm_overlay (m : SortedMap κ ν) {es : List (κ × ν)} (hes : (es.map (·.1)).Nodup)
    (hm : ∀ e ∈ es, m.get? e.1 = none) : (m.overlay es).toList.Perm (es ++ m.toList) := by
  induction es generalizing m with
  | nil => exact List.Perm.refl _
  | cons e es ih =>
    obtain ⟨hne, hes'⟩ := List.nodup_cons.1 hes
    have hm' : ∀ e' ∈ es, (m.insert e.1 e.2).get? e'.1 = none := by
      intro e' he'
      have : e'.1 ≠ e.1 := fun h => hne (List.mem_map.2 ⟨e', he', h⟩)
      rw [get?_insert_of_ne this]
      exact hm e' (List.mem_cons_of_mem _ he')
    have hins := perm_insert_of_get?_eq_none e.2 (hm e List.mem_cons_self)
    exact (ih (m.insert e.1 e.2) hes' hm').trans
      ((hins.append_left es).trans List.perm_middle)

theorem perm_ofList {es : List (κ × ν)} (hes : (es.map (·.1)).Nodup) :
    (ofList es).toList.Perm es := by
  have h := perm_overlay (empty : SortedMap κ ν) hes fun e _ => get?_empty e.1
  rwa [show (empty : SortedMap κ ν).toList = [] from rfl, List.append_nil] at h

theorem mem_of_get?_overlay {m : SortedMap κ ν} {es : List (κ × ν)} {k : κ} {v : ν}
    (h : (m.overlay es).get? k = some v) : (k, v) ∈ es ∨ m.get? k = some v := by
  induction es generalizing m with
  | nil => exact .inr h
  | cons e es ih =>
    rcases ih h with h | h
    · exact .inl (List.mem_cons_of_mem _ h)
    · by_cases hk : k = e.1
      · rw [hk, get?_insert_self, Option.some.injEq] at h
        exact .inl (by rw [hk, ← h]; exact List.mem_cons_self)
      · rw [get?_insert_of_ne hk] at h
        exact .inr h

theorem mem_of_get?_ofList {es : List (κ × ν)} {k : κ} {v : ν}
    (h : (ofList es).get? k = some v) : (k, v) ∈ es := by
  rcases mem_of_get?_overlay h with h | h
  · exact h
  · rw [get?_empty] at h
    cases h

/-- An overlay is looked at first. -/
theorem get?_overlay (m : SortedMap κ ν) (es : List (κ × ν)) (k : κ) :
    (m.overlay es).get? k = ((ofList es).get? k).or (m.get? k) := by
  suffices h : ∀ m : SortedMap κ ν, (m.overlay es).get? k =
      (((empty : SortedMap κ ν).overlay es).get? k).or (m.get? k) from h m
  induction es with
  | nil => exact fun m => rfl
  | cons e es ih =>
    intro m
    show ((m.insert e.1 e.2).overlay es).get? k =
      (((empty : SortedMap κ ν).insert e.1 e.2).overlay es |>.get? k).or (m.get? k)
    rw [ih, ih (empty.insert e.1 e.2), Option.or_assoc]
    congr 1
    by_cases hk : k = e.1
    · rw [hk, get?_insert_self, get?_insert_self, Option.some_or]
    · rw [get?_insert_of_ne hk, get?_insert_of_ne hk, get?_empty, Option.none_or]

theorem overlay_append (m : SortedMap κ ν)
    (es fs : List (κ × ν)) : m.overlay (es ++ fs) = (m.overlay es).overlay fs :=
  List.foldl_append

/-- To lay the same entries over a map once more changes nothing. -/
theorem overlay_overlay (m : SortedMap κ ν) (es : List (κ × ν)) :
    (m.overlay es).overlay es = m.overlay es := by
  refine ext_get? fun k => ?_
  rw [get?_overlay, get?_overlay, ← Option.or_assoc, Option.or_self]

theorem ofList_toList (m : SortedMap κ ν) : ofList m.toList = m := by
  refine ext_get? fun k => Option.ext fun v => ?_
  have hperm : (ofList m.toList).toList.Perm m.toList := perm_ofList m.nodup_keys
  rw [← mem_toList, hperm.mem_iff, mem_toList]

/-! ### Values listed under a key of their own -/

theorem mem_of_mem_values_ofList {f : ν → κ} {xs : List ν} {x : ν}
    (h : x ∈ (ofList (xs.map fun x => (f x, x))).values) : x ∈ xs := by
  obtain ⟨k, hk⟩ := mem_values.1 h
  obtain ⟨y, hy, heq⟩ := List.mem_map.1 (mem_of_get?_ofList hk)
  obtain ⟨-, rfl⟩ := Prod.mk.inj heq
  exact hy

theorem isSome_get?_overlay {m : SortedMap κ ν} {es : List (κ × ν)} {k : κ}
    (h : k ∈ es.map (·.1) ∨ (m.get? k).isSome) : ((m.overlay es).get? k).isSome := by
  induction es generalizing m with
  | nil => exact h.resolve_left List.not_mem_nil
  | cons e es ih =>
    refine ih ?_
    by_cases hk : k = e.1
    · exact .inr (by rw [hk, get?_insert_self]; rfl)
    · rw [get?_insert_of_ne hk]
      exact h.imp_left fun h => (List.mem_cons.1 h).resolve_left hk

/-- Values with keys of their own are all listed. -/
theorem mem_values_ofList {f : ν → κ} {xs : List ν} {x : ν}
    (hinj : ∀ x ∈ xs, ∀ y ∈ xs, f x = f y → x = y) :
    x ∈ (ofList (xs.map fun x => (f x, x))).values ↔ x ∈ xs := by
  refine ⟨mem_of_mem_values_ofList, fun hx => ?_⟩
  have hkey : f x ∈ (xs.map fun x => (f x, x)).map (·.1) := by
    rw [List.map_map]
    exact List.mem_map_of_mem hx
  obtain ⟨y, hy⟩ := Option.isSome_iff_exists.1 (isSome_get?_overlay (m := empty) (.inl hkey))
  obtain ⟨z, hz, heq⟩ := List.mem_map.1 (mem_of_get?_ofList hy)
  obtain ⟨hzx, rfl⟩ := Prod.mk.inj heq
  exact mem_values.2 ⟨f x, hinj z hz x hx hzx ▸ hy⟩

theorem map_values_ofList (f : ν → κ) (xs : List ν) :
    (ofList (xs.map fun x => (f x, x))).values.map f = (ofList (xs.map fun x => (f x, x))).keys := by
  rw [values, List.map_map]
  refine List.map_congr_left fun e he => ?_
  obtain ⟨y, -, heq⟩ := List.mem_map.1 (mem_of_get?_ofList (mem_toList.1 he))
  obtain ⟨hk, rfl⟩ := Prod.mk.inj heq
  exact hk

end SortedMap

end FleetControl
