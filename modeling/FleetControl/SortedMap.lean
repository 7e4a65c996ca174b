/-!
# Maps listed by key

`SortedMap κ ν` is a finite map kept as the list of its entries in strictly ascending key order.
Strings are compared character by character, which is also the order of their UTF-8 bytes.

The list is the canonical form of the map: two maps with the same value at every key are equal
(`SortedMap.ext_get?`), so a map can be compared, printed and read back without choosing an order.
-/

namespace FleetControl

/-- A finite map from keys to values, its entries in strictly ascending key order. -/
structure SortedMap (κ ν : Type) [Ord κ] where
  /-- The entries, by ascending key. -/
  entries : List (κ × ν)
  /-- No key is listed twice and each stands before the larger ones. -/
  ascending : entries.Pairwise fun a b => compare a.1 b.1 = .lt

namespace SortedMap

variable {κ ν : Type} [Ord κ]

/-! ### Entry lists -/

/-- The value listed for a key. -/
def lookupEntry (k : κ) : List (κ × ν) → Option ν
  | [] => none
  | (k', v) :: rest => if compare k k' = .eq then some v else lookupEntry k rest

/-- Put a value at its place in an ascending list, over the one already there. -/
def insertEntry (k : κ) (v : ν) : List (κ × ν) → List (κ × ν)
  | [] => [(k, v)]
  | (k', v') :: rest =>
    match compare k k' with
    | .lt => (k, v) :: (k', v') :: rest
    | .eq => (k, v) :: rest
    | .gt => (k', v') :: insertEntry k v rest

theorem mem_insertEntry {k : κ} {v : ν} {es : List (κ × ν)} {e : κ × ν}
    (h : e ∈ insertEntry k v es) : e = (k, v) ∨ e ∈ es := by
  induction es with
  | nil => simpa [insertEntry] using h
  | cons head rest ih =>
    obtain ⟨k', v'⟩ := head
    simp only [insertEntry] at h
    split at h
    · simpa using h
    · rcases List.mem_cons.1 h with h | h
      · exact .inl h
      · exact .inr (List.mem_cons_of_mem _ h)
    · rcases List.mem_cons.1 h with h | h
      · exact .inr (h ▸ List.mem_cons_self)
      · exact (ih h).imp id (List.mem_cons_of_mem _)

theorem pairwise_insertEntry [Std.TransOrd κ] [Std.LawfulEqOrd κ] (k : κ) (v : ν)
    {es : List (κ × ν)} (h : es.Pairwise fun a b => compare a.1 b.1 = .lt) :
    (insertEntry k v es).Pairwise fun a b => compare a.1 b.1 = .lt := by
  induction es with
  | nil => simp [insertEntry]
  | cons head rest ih =>
    obtain ⟨k', v'⟩ := head
    obtain ⟨hhead, hrest⟩ := List.pairwise_cons.1 h
    simp only [insertEntry]
    split
    case h_1 hlt =>
      refine List.pairwise_cons.2 ⟨fun e he => ?_, h⟩
      rcases List.mem_cons.1 he with rfl | he
      · exact hlt
      · exact Std.TransCmp.lt_trans hlt (hhead e he)
    case h_2 heq =>
      have := Std.LawfulEqCmp.eq_of_compare heq
      subst this
      exact List.pairwise_cons.2 ⟨hhead, hrest⟩
    case h_3 hgt =>
      refine List.pairwise_cons.2 ⟨fun e he => ?_, ih hrest⟩
      rcases mem_insertEntry he with rfl | he
      · exact Std.OrientedCmp.gt_iff_lt.1 hgt
      · exact hhead e he

theorem lookupEntry_insertEntry [Std.TransOrd κ] [Std.LawfulEqOrd κ] (k q : κ) (v : ν)
    (es : List (κ × ν)) :
    lookupEntry q (insertEntry k v es) =
      if compare q k = .eq then some v else lookupEntry q es := by
  induction es with
  | nil => simp [insertEntry, lookupEntry]
  | cons head rest ih =>
    obtain ⟨k', v'⟩ := head
    simp only [insertEntry]
    split
    case h_1 => simp [lookupEntry]
    case h_2 heq =>
      have := Std.LawfulEqCmp.eq_of_compare heq
      subst this
      by_cases hq : compare q k = .eq <;> simp [lookupEntry, hq]
    case h_3 hgt =>
      by_cases hq : compare q k' = .eq
      · have := Std.LawfulEqCmp.eq_of_compare hq
        subst this
        have hne : compare q k ≠ .eq := by
          rw [Std.OrientedOrd.eq_swap, hgt]; simp
        simp [lookupEntry, hne, Std.ReflCmp.compare_self]
      · simp [lookupEntry, hq, ih]

theorem lookupEntry_eq_none_of_lt [Std.TransOrd κ] {q : κ} {es : List (κ × ν)}
    (h : ∀ e ∈ es, compare q e.1 = .lt) : lookupEntry q es = none := by
  induction es with
  | nil => rfl
  | cons head rest ih =>
    have hne : compare q head.1 ≠ .eq := by simp [h head List.mem_cons_self]
    simp [lookupEntry, hne, ih fun e he => h e (List.mem_cons_of_mem _ he)]

/-! ### The map -/

/-- The map without entries. -/
def empty : SortedMap κ ν := ⟨[], .nil⟩

instance : EmptyCollection (SortedMap κ ν) := ⟨empty⟩

instance : Inhabited (SortedMap κ ν) := ⟨empty⟩

instance [DecidableEq κ] [DecidableEq ν] : DecidableEq (SortedMap κ ν) := fun a b =>
  decidable_of_iff (a.entries = b.entries)
    ⟨fun h => by cases a; cases b; simp_all, fun h => h ▸ rfl⟩

/-- The value at a key. -/
def get? (m : SortedMap κ ν) (k : κ) : Option ν := lookupEntry k m.entries

/-- Whether a key has a value. -/
def contains (m : SortedMap κ ν) (k : κ) : Bool := (m.get? k).isSome

/-- The entries, by ascending key. -/
def toList (m : SortedMap κ ν) : List (κ × ν) := m.entries

/-- The keys, ascending. -/
def keys (m : SortedMap κ ν) : List κ := m.entries.map (·.1)

/-- The values, by ascending key. -/
def values (m : SortedMap κ ν) : List ν := m.entries.map (·.2)

/-- Number of keys. -/
def size (m : SortedMap κ ν) : Nat := m.entries.length

/-- Whether there is no key. -/
def isEmpty (m : SortedMap κ ν) : Bool := m.entries.isEmpty

/-- The map without a key. -/
def erase (m : SortedMap κ ν) (k : κ) : SortedMap κ ν :=
  ⟨m.entries.filter fun e => compare k e.1 != .eq, m.ascending.filter _⟩

theorem get?_empty (k : κ) : (empty : SortedMap κ ν).get? k = none := rfl

variable [Std.TransOrd κ] [Std.LawfulEqOrd κ]

/-- The map with a value put at a key. -/
def insert (m : SortedMap κ ν) (k : κ) (v : ν) : SortedMap κ ν :=
  ⟨insertEntry k v m.entries, pairwise_insertEntry k v m.ascending⟩

/-- The map with the value at a key changed; a key without a value stays without one. -/
def modify (m : SortedMap κ ν) (k : κ) (f : ν → ν) : SortedMap κ ν :=
  match m.get? k with
  | some v => m.insert k (f v)
  | none => m

/-- The map laid under the entries of a list; of entries with one key the last counts. -/
def overlay (m : SortedMap κ ν) (es : List (κ × ν)) : SortedMap κ ν :=
  es.foldl (fun acc e => acc.insert e.1 e.2) m

/-- The map of a list of entries; of entries with one key the last counts. -/
def ofList (es : List (κ × ν)) : SortedMap κ ν := empty.overlay es

theorem get?_insert (m : SortedMap κ ν) (k q : κ) (v : ν) :
    (m.insert k v).get? q = if compare q k = .eq then some v else m.get? q :=
  lookupEntry_insertEntry k q v m.entries

/-- Maps with the same value at every key are equal. -/
theorem ext_get? {a b : SortedMap κ ν} (h : ∀ k, a.get? k = b.get? k) : a = b := by
  obtain ⟨es, hes⟩ := a
  obtain ⟨fs, hfs⟩ := b
  suffices es = fs by subst this; rfl
  induction es generalizing fs with
  | nil =>
    cases fs with
    | nil => rfl
    | cons f fs =>
      have := h f.1
      simp [get?, lookupEntry, Std.ReflCmp.compare_self] at this
  | cons e es ih =>
    cases fs with
    | nil =>
      have := h e.1
      simp [get?, lookupEntry, Std.ReflCmp.compare_self] at this
    | cons f fs =>
      obtain ⟨he, hes'⟩ := List.pairwise_cons.1 hes
      obtain ⟨hf, hfs'⟩ := List.pairwise_cons.1 hfs
      have hkey : compare e.1 f.1 = .eq := by
        cases hc : compare e.1 f.1 with
        | eq => rfl
        | lt =>
          have h' := h e.1
          have hnone : lookupEntry e.1 fs = none := lookupEntry_eq_none_of_lt fun g hg =>
            Std.TransCmp.lt_trans hc (hf g hg)
          simp [get?, lookupEntry, Std.ReflCmp.compare_self, hc, hnone] at h'
        | gt =>
          have h' := h f.1
          have hlt := Std.OrientedCmp.gt_iff_lt.1 hc
          have hnone : lookupEntry f.1 es = none := lookupEntry_eq_none_of_lt fun g hg =>
            Std.TransCmp.lt_trans hlt (he g hg)
          simp [get?, lookupEntry, Std.ReflCmp.compare_self, hlt, hnone] at h'
      have hk := Std.LawfulEqCmp.eq_of_compare hkey
      have hv : e.2 = f.2 := by
        have := h e.1
        rw [← hk] at hkey
        simpa [get?, lookupEntry, Std.ReflCmp.compare_self, ← hk] using this
      have hef : e = f := Prod.ext hk hv
      subst hef
      refine congrArg (e :: ·) (ih hes' fs hfs' fun k => ?_)
      have := h k
      by_cases hke : compare k e.1 = .eq
      · have := Std.LawfulEqCmp.eq_of_compare hke
        subst this
        simp [get?, lookupEntry_eq_none_of_lt he, lookupEntry_eq_none_of_lt hf]
      · simpa [get?, lookupEntry, hke] using this

end SortedMap

end FleetControl
