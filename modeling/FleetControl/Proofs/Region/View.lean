import FleetControl.Proofs.Region.Renumbering
import FleetControl.Proofs.Region.Traversal
import Mathlib.Data.List.Perm.Basic

/-!
# The views of a tree

The subtree of the root lists every region, and none twice (`Tree.Sound.subtree_root_perm`). So the
views of a tree show every region exactly once (`Tree.Sound.perm_views`).
-/

namespace FleetControl.Region.Tree

variable {t : Tree} {id : RegionId} {p : Path}

theorem id_of_view? {v : View} (h : t.view? id = some v) : v.id = id := by
  simp only [view?, bind, Option.bind_eq_some_iff] at h
  obtain ⟨entry, -, path, -, properties, -, hv⟩ := h
  cases hv
  rfl

namespace Sound

variable (h : t.Sound)
include h

theorem subtree_root_perm : (t.subtree root).Perm (List.range t.size) := by
  refine (List.perm_ext_iff_of_nodup (h.nodup_subtree root) List.nodup_range).2 fun id => ?_
  rw [h.mem_subtree_iff h.path?_root, List.mem_range, ← h.path?_isSome_iff,
    Option.isSome_iff_exists]
  simp

theorem map_id_views : t.views.map (·.id) = t.subtree root := by
  have hview : ∀ ids : List RegionId, (∀ id ∈ ids, id < t.size) →
      (ids.filterMap t.view?).map (·.id) = ids := by
    intro ids hids
    induction ids with
    | nil => rfl
    | cons id ids ih =>
      obtain ⟨hid, hids⟩ := List.forall_mem_cons.1 hids
      obtain ⟨p, hp⟩ := Option.isSome_iff_exists.1 (h.path?_isSome_iff.2 hid)
      obtain ⟨v, hv⟩ := exists_view? hp
      rw [List.filterMap_cons_some hv, List.map_cons, ih hids, id_of_view? hv]
  exact hview _ fun id hid => List.mem_range.1 (h.subtree_root_perm.mem_iff.1 hid)

/-- **The views of a tree show every region once.** -/
theorem perm_views : (t.views.map (·.id)).Perm (List.range t.size) :=
  h.map_id_views ▸ h.subtree_root_perm

/-- A listed view is what there is to be seen at its path. -/
theorem resolve_of_mem_views {v : View} (hv : v ∈ t.views) :
    t.resolve v.path = some v.id ∧ t.view? v.id = some v := by
  obtain ⟨id, -, hview⟩ := List.mem_filterMap.1 hv
  obtain ⟨entry, -, hpath, -⟩ := view?_eq_some hview
  rw [id_of_view? hview]
  exact ⟨h.resolve_eq_some_iff.2 hpath, hview⟩

end Sound

end FleetControl.Region.Tree
