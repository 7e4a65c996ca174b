import FleetControl.Proofs.Region.Operations

/-!
# Walking through a tree

The subtree of a region is the region and then the subtrees of the regions directly in it, by name
(`Tree.Sound.subtree_eq`). A walk that keeps a stack of the regions it still has to visit comes to
the same list, after one round for each region of it (`Tree.Sound.visit_iterate`).

The list is in strictly ascending order of paths (`Tree.Sound.ascending_subtree`): a region comes
before those in it, and the regions in two children are ordered as the names at which their paths
part. So no region is listed twice.

The regions around a region are those with the paths around its path, from the inside out
(`Tree.Sound.map_path?_ancestors`).
-/

namespace FleetControl.Region.Tree

variable {t : Tree} {p q : Path} {id c : RegionId}

/-- The path of one region comes before the path of another. -/
def Precedes (t : Tree) (a b : RegionId) : Prop :=
  ∃ p q, t.path? a = some p ∧ t.path? b = some q ∧ compare p q = .lt

theorem Precedes.ne {a b : RegionId} (h : t.Precedes a b) : a ≠ b := by
  rintro rfl
  obtain ⟨p, q, hp, hq, hlt⟩ := h
  obtain rfl : p = q := Option.some.inj (hp.symm.trans hq)
  exact SortedMap.ne_of_compare_lt hlt rfl

/-- One round of a walk: the region on top of the stack is listed, and those directly in it take
its place, the first of them on top. With an empty stack the walk is over. -/
def visit (t : Tree) : List RegionId × List RegionId → List RegionId × List RegionId
  | (listed, []) => (listed, [])
  | (listed, id :: stack) => (listed ++ [id], t.children id ++ stack)

theorem subtree_of_lt_size (hid : id < t.size) : t.subtree id = t.descend t.size id := by
  obtain ⟨entry, hget⟩ := exists_get?_of_lt_size hid
  simp only [subtree, hget]

theorem subtree_eq_nil (hid : t.size ≤ id) : t.subtree id = [] := by
  simp only [subtree, get?_eq_none hid]

/-- The regions directly in a region are listed by name. -/
theorem pairwise_children (t : Tree) (id : RegionId) : (t.children id).Pairwise fun a b =>
    ∃ m n, t.child? id m = some a ∧ t.child? id n = some b ∧ compare m n = .lt := by
  unfold children
  cases hget : t.get? id with
  | none => exact List.Pairwise.nil
  | some entry =>
    have hchild : ∀ e ∈ entry.children.toList, t.child? id e.1 = some e.2 := fun e he =>
      child?_eq_some.2 ⟨entry, hget, SortedMap.mem_toList.1 he⟩
    exact List.pairwise_map.2 (entry.children.ascending.imp_of_mem fun {a b} ha hb hab =>
      ⟨a.1, b.1, hchild a ha, hchild b hb, hab⟩)

namespace Sound

variable (h : t.Sound)
include h

theorem lt_size_of_mem_children (hc : c ∈ t.children id) : c < t.size := by
  obtain ⟨name, hname⟩ := mem_children.1 hc
  obtain ⟨entry, hget, -⟩ := h.known hname
  exact lt_size_of_get? hget

theorem depth_lt_size (hp : t.path? id = some p) : p.depth < t.size :=
  (h.depth_le hp).trans_lt (lt_size_of_path? hp)

/-! ### The subtree as a list -/

/-- No region is deeper than the tree has regions, so to look at more levels changes nothing. -/
theorem descend_eq {fuel fuel' : Nat} (hp : t.path? id = some p)
    (hfuel : t.size ≤ p.depth + fuel) (hfuel' : t.size ≤ p.depth + fuel') :
    t.descend fuel id = t.descend fuel' id := by
  induction fuel generalizing fuel' id p with
  | zero => exact absurd (h.depth_lt_size hp) (not_lt.2 hfuel)
  | succ fuel ih =>
    cases fuel' with
    | zero => exact absurd (h.depth_lt_size hp) (not_lt.2 hfuel')
    | succ fuel' =>
      rw [descend, descend]
      refine congrArg (id :: ·) (List.flatMap_congr fun c hc => ?_)
      obtain ⟨name, q, -, hq, hsegments⟩ := h.exists_path_of_mem_children hp hc
      have hdepth : q.depth = p.depth + 1 := by simp [Path.depth, hsegments]
      exact ih hq (by omega) (by omega)

/-- **The subtree of a region** is the region and then the subtrees of those directly in it. -/
theorem subtree_eq (hid : id < t.size) :
    t.subtree id = id :: (t.children id).flatMap t.subtree := by
  obtain ⟨p, hp, -⟩ := h.exists_path hid
  obtain ⟨n, hn⟩ : ∃ n, t.size = n + 1 := Nat.exists_eq_add_one_of_ne_zero (Nat.ne_zero_of_lt hid)
  rw [subtree_of_lt_size hid, hn, descend]
  refine congrArg (id :: ·) (List.flatMap_congr fun c hc => ?_)
  obtain ⟨name, q, -, hq, hsegments⟩ := h.exists_path_of_mem_children hp hc
  have hdepth : q.depth = p.depth + 1 := by simp [Path.depth, hsegments]
  rw [subtree_of_lt_size (lt_size_of_path? hq)]
  exact h.descend_eq hq (by omega) (by omega)

/-- **A walk with a stack ends**: it lists the subtrees of the regions on the stack, one region a
round. -/
theorem visit_iterate (listed : List RegionId) {stack : List RegionId}
    (hstack : ∀ id ∈ stack, id < t.size) :
    t.visit^[(stack.flatMap t.subtree).length] (listed, stack) =
      (listed ++ stack.flatMap t.subtree, []) := by
  induction hn : (stack.flatMap t.subtree).length generalizing listed stack with
  | zero =>
    cases stack with
    | nil => simp
    | cons id rest => simp [h.subtree_eq (hstack id List.mem_cons_self)] at hn
  | succ n ih =>
    cases stack with
    | nil => simp at hn
    | cons id rest =>
      obtain ⟨hid, hrest⟩ := List.forall_mem_cons.1 hstack
      have hlisted : (id :: rest).flatMap t.subtree =
          id :: (t.children id ++ rest).flatMap t.subtree := by
        rw [List.flatMap_cons, h.subtree_eq hid, List.flatMap_append, List.cons_append]
      rw [hlisted, List.length_cons, Nat.succ_inj] at hn
      have hchildren : ∀ c ∈ t.children id ++ rest, c < t.size := fun c hc =>
        (List.mem_append.1 hc).elim h.lt_size_of_mem_children (hrest c)
      rw [Function.iterate_succ_apply, visit, ih _ hchildren hn, hlisted, List.append_assoc]
      rfl

/-! ### The order of a subtree -/

theorem ascending_descend (fuel : Nat) (hp : t.path? id = some p) :
    (t.descend fuel id).Pairwise t.Precedes := by
  induction fuel generalizing id p with
  | zero => exact List.Pairwise.nil
  | succ fuel ih =>
    rw [descend, List.pairwise_cons, List.pairwise_flatMap]
    refine ⟨fun x hx => ?_, fun c hc => ?_, ?_⟩
    · -- what lies in a child has a longer path
      obtain ⟨c, hc, hx⟩ := List.mem_flatMap.1 hx
      obtain ⟨name, q, -, hq, hsegments⟩ := h.exists_path_of_mem_children hp hc
      obtain ⟨r, hr, hqr⟩ := h.contains_of_mem_descend hx hq
      have hpq : p.contains q = true := Path.contains_iff.2 (hsegments ▸ List.prefix_append ..)
      refine ⟨p, r, hp, hr, Path.compare_lt_of_contains (Path.contains_trans hpq hqr) ?_⟩
      rintro rfl
      have hle := Path.depth_le_of_contains hqr
      simp only [Path.depth, hsegments, List.length_append, List.length_singleton] at hle
      exact Nat.not_succ_le_self _ hle
    · obtain ⟨name, q, -, hq, -⟩ := h.exists_path_of_mem_children hp hc
      exact ih hq
    · -- what lies in two children has paths that part at their names
      refine (t.pairwise_children id).imp_of_mem fun {a b} ha hb hab => ?_
      obtain ⟨m, n, hm, hn, hlt⟩ := hab
      obtain ⟨-, q, -, hq, -⟩ := h.exists_path_of_mem_children hp ha
      obtain ⟨-, r, -, hr, -⟩ := h.exists_path_of_mem_children hp hb
      intro x hx y hy
      obtain ⟨px, hpx, hqx⟩ := h.contains_of_mem_descend hx hq
      obtain ⟨py, hpy, hry⟩ := h.contains_of_mem_descend hy hr
      have hx : p.segments ++ [m] <+: px.segments :=
        h.segments_path? hm hp hq ▸ Path.contains_iff.1 hqx
      have hy : p.segments ++ [n] <+: py.segments :=
        h.segments_path? hn hp hr ▸ Path.contains_iff.1 hry
      exact ⟨px, py, hpx, hpy, Path.compare_lt_of_parted hx hy hlt⟩

/-- **A subtree is listed in strictly ascending order of paths.** -/
theorem ascending_subtree (id : RegionId) : (t.subtree id).Pairwise t.Precedes := by
  rcases Nat.lt_or_ge id t.size with hid | hid
  · obtain ⟨p, hp, -⟩ := h.exists_path hid
    rw [subtree_of_lt_size hid]
    exact h.ascending_descend _ hp
  · rw [subtree_eq_nil hid]
    exact List.Pairwise.nil

/-- No region is listed twice. -/
theorem nodup_subtree (id : RegionId) : (t.subtree id).Nodup :=
  (h.ascending_subtree id).imp Precedes.ne

/-! ### The regions around a region -/

/-- The paths of a region and of those around it are the prefixes of its path, the longest first. -/
theorem map_path?_lineage (hp : t.path? id = some p) :
    (t.lineage id).map t.path? = (p :: p.enclosing).map some := by
  induction p using Path.induction_concat generalizing id with
  | root =>
    have hid := h.resolve_eq_some_iff.2 hp
    rw [resolve_root, Option.some.injEq] at hid
    rw [← hid, h.lineage_root, List.map_singleton, h.path?_root]
    rfl
  | concat p q name hq ih =>
    have hid := h.resolve_eq_some_iff.2 hp
    rw [resolve_concat hq, Option.bind_eq_some_iff] at hid
    obtain ⟨parent, hparent, hc⟩ := hid
    rw [h.lineage_child hc, List.map_cons, hp, ih (h.resolve_eq_some_iff.1 hparent),
      Path.enclosing_concat hq]
    rfl

/-- **The regions around a region** have the paths around its path, from the inside out. -/
theorem map_path?_ancestors (hp : t.path? id = some p) :
    (t.ancestors id).map t.path? = p.enclosing.map some := by
  rw [ancestors, List.map_tail, h.map_path?_lineage hp]
  rfl

omit h in
/-- A region is listed before those around it. -/
theorem lineage_eq (hid : id < t.size) : t.lineage id = id :: t.ancestors id := by
  obtain ⟨entry, hget⟩ := exists_get?_of_lt_size hid
  simp [ancestors, lineage, climb, hget]

/-- The regions around a region are its parent and those around that. -/
theorem ancestors_eq (id : RegionId) :
    t.ancestors id = (t.parent? id).elim [] fun parent => parent :: t.ancestors parent := by
  cases hget : t.get? id with
  | none => simp [ancestors, lineage, climb, parent?, hget]
  | some entry =>
    rcases eq_or_ne id root with rfl | hne
    · obtain ⟨entry', hget', hnone⟩ := h.rooted
      simp [ancestors, h.lineage_root, parent?, hget', hnone]
    · obtain ⟨parent, hlt, hparent, -, hc⟩ := h.held hget hne
      have hsize : parent < t.size := hlt.trans (lt_size_of_get? hget)
      rw [parent?, hget, Option.bind_some, hparent, Option.elim_some, ancestors,
        h.lineage_child hc, List.tail_cons, lineage_eq hsize]

theorem mem_ancestors_iff (hp : t.path? id = some p) (hq : t.path? c = some q) :
    c ∈ t.ancestors id ↔ q.contains p = true ∧ q ≠ p := by
  have hmem : some q ∈ (t.ancestors id).map t.path? ↔ q ∈ p.enclosing := by
    rw [h.map_path?_ancestors hp]
    simp
  rw [← Path.mem_enclosing, ← hmem, List.mem_map]
  constructor
  · exact fun hc => ⟨c, hc, hq⟩
  · rintro ⟨c', hc', hq'⟩
    have hres := h.resolve_eq_some_iff.2 hq'
    rw [h.resolve_eq_some_iff.2 hq, Option.some.injEq] at hres
    exact hres ▸ hc'

/-! ### What lies in a region -/

/-- A region lies in another if its path does. -/
theorem mem_subtree_iff_contains : c ∈ t.subtree id ↔
    ∃ p q, t.path? id = some p ∧ t.path? c = some q ∧ p.contains q = true := by
  constructor
  · intro hc
    have hid : id < t.size := by
      by_contra hge
      rw [subtree_eq_nil (not_lt.1 hge)] at hc
      cases hc
    obtain ⟨p, hp, -⟩ := h.exists_path hid
    obtain ⟨q, hq, hpq⟩ := (h.mem_subtree_iff hp).1 hc
    exact ⟨p, q, hp, hq, hpq⟩
  · rintro ⟨p, q, hp, hq, hpq⟩
    exact (h.mem_subtree_iff hp).2 ⟨q, hq, hpq⟩

/-- A region lies in itself and in those around it. -/
theorem mem_subtree_iff_ancestor :
    c ∈ t.subtree id ↔ c < t.size ∧ (id = c ∨ id ∈ t.ancestors c) := by
  rw [h.mem_subtree_iff_contains]
  constructor
  · rintro ⟨p, q, hp, hq, hpq⟩
    refine ⟨lt_size_of_path? hq, ?_⟩
    by_cases heq : p = q
    · have hid := h.resolve_eq_some_iff.2 hp
      rw [heq, h.resolve_eq_some_iff.2 hq, Option.some.injEq] at hid
      exact .inl hid.symm
    · exact .inr ((h.mem_ancestors_iff hq hp).2 ⟨hpq, heq⟩)
  · rintro ⟨hc, hid⟩
    obtain ⟨q, hq, -⟩ := h.exists_path hc
    rcases hid with rfl | hid
    · exact ⟨q, q, hq, hq, Path.contains_refl q⟩
    · have hmem := List.mem_map_of_mem (f := t.path?) hid
      rw [h.map_path?_ancestors hq] at hmem
      obtain ⟨p, hp, hpath⟩ := List.mem_map.1 hmem
      exact ⟨p, q, hpath.symm, hq, (Path.mem_enclosing.1 hp).1⟩

end Sound

end FleetControl.Region.Tree
