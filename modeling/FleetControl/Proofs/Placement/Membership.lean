import FleetControl.Proofs.Placement.Election
import FleetControl.Proofs.Region.Traversal

/-!
# What lies in a region

Whether a region lies in another can be told in three ways: by listing the subtree, by climbing from
the inner one, and by comparing paths. They agree in every tree that operations build
(`Placement.containment_agrees`). So an election, which goes by the paths in the labels of nodes,
finds the nodes in the tree where their labels lead.
-/

namespace FleetControl.Placement

open Region (Path RegionId Tree)

/-- The regions in a region are told in the same way by traversal, by climbing and by paths. -/
structure Containment (t : Tree) : Prop where
  /-- The traversal ends, after one round for each region that it lists. -/
  ends : ∀ r < t.size, t.visit^[(t.subtree r).length] ([], [r]) = (t.subtree r, [])
  /-- It begins with the region itself. -/
  first : ∀ r < t.size, (t.subtree r).head? = some r
  /-- It lists no region twice. -/
  once : ∀ r, (t.subtree r).Nodup
  /-- It goes in strictly ascending order of paths. -/
  ascending : ∀ r, (t.subtree r).Pairwise t.Precedes
  /-- It lists the regions whose paths lie in the path of the region. -/
  paths : ∀ r x, x ∈ t.subtree r ↔
    ∃ p q, t.path? r = some p ∧ t.path? x = some q ∧ p.contains q = true
  /-- It lists the regions that the region is, or is around. -/
  around : ∀ r x, x ∈ t.subtree r ↔ x < t.size ∧ (r = x ∨ r ∈ t.ancestors x)
  /-- To climb is to go from parent to parent. -/
  climbed : ∀ x, t.ancestors x =
    (t.parent? x).elim [] fun parent => parent :: t.ancestors parent
  /-- The regions around a region have the proper prefixes of its path, the longest first. -/
  prefixes : ∀ x q, t.path? x = some q → ∃ ps : List Path,
    (t.ancestors x).map t.path? = ps.map some ∧ (∀ p, p ∈ ps ↔ p.contains q = true ∧ p ≠ q) ∧
      ps.Pairwise fun p p' => p'.depth < p.depth
  /-- A node whose label leads to a region lies in the path of another just if the region does. -/
  labelled : ∀ node x, t.resolveText node.region = .ok (some x) → ∀ r p, t.path? r = some p →
    (p.contains (nodePath node) = true ↔ x ∈ t.subtree r)
  /-- So it lies in a target region of an election just if its region does. -/
  targeted : ∀ node x, t.resolveText node.region = .ok (some x) → ∀ s scope,
    t.path? s = some scope → (inTargets (targetRegions t scope s) node = true ↔
      ∃ r, (∃ p ∈ targetRegions t scope s, t.path? r = some p) ∧ x ∈ t.subtree r)

variable {t : Tree} {node : Node} {x r : RegionId} {p scope : Path}

theorem path?_of_resolveText (ht : t.Sound)
    (hx : t.resolveText node.region = .ok (some x)) : t.path? x = some (nodePath node) := by
  unfold Tree.resolveText at hx
  unfold nodePath
  cases hp : Path.parse node.region with
  | error e => simp [hp, bind, Except.bind] at hx
  | ok q =>
    simp only [hp, bind, Except.bind, pure, Except.pure, Except.ok.injEq] at hx
    exact ht.resolve_eq_some_iff.1 hx

/-- A node lies in the path of a region just if the region that its label leads to does. -/
theorem contains_nodePath_iff (ht : t.Sound) (hx : t.resolveText node.region = .ok (some x))
    (hp : t.path? r = some p) : p.contains (nodePath node) = true ↔ x ∈ t.subtree r := by
  have hnode := path?_of_resolveText ht hx
  rw [ht.mem_subtree_iff hp]
  constructor
  · exact fun hin => ⟨nodePath node, hnode, hin⟩
  · rintro ⟨q, hq, hin⟩
    rw [hnode, Option.some.injEq] at hq
    exact hq ▸ hin

theorem inTargets_iff_mem_subtree (ht : t.Sound) (hx : t.resolveText node.region = .ok (some x))
    {s : RegionId} (hs : t.path? s = some scope) :
    inTargets (targetRegions t scope s) node = true ↔
      ∃ r, (∃ p ∈ targetRegions t scope s, t.path? r = some p) ∧ x ∈ t.subtree r := by
  rw [inTargets_iff]
  constructor
  · rintro ⟨p, hp, hin⟩
    obtain ⟨r, hr⟩ : ∃ r, t.path? r = some p := by
      rcases (mem_targetRegions_iff ht hs).1 hp with ⟨⟨r, hr, -⟩, -⟩ | ⟨rfl, -⟩
      · exact ⟨r, hr⟩
      · exact ⟨s, hs⟩
    exact ⟨r, ⟨p, hp, hr⟩, (contains_nodePath_iff ht hx hr).1 hin⟩
  · rintro ⟨r, ⟨p, hp, hr⟩, hin⟩
    exact ⟨p, hp, (contains_nodePath_iff ht hx hr).2 hin⟩

theorem containment_of_sound (ht : t.Sound) : Containment t where
  ends r hr := by
    have hstack : ∀ id ∈ [r], id < t.size := by simpa using hr
    have hwalk := ht.visit_iterate [] hstack
    rwa [List.flatMap_singleton, List.nil_append] at hwalk
  first r hr := by rw [ht.subtree_eq hr, List.head?_cons]
  once := ht.nodup_subtree
  ascending := ht.ascending_subtree
  paths _ _ := ht.mem_subtree_iff_contains
  around _ _ := ht.mem_subtree_iff_ancestor
  climbed := ht.ancestors_eq
  prefixes _ q hq :=
    ⟨q.enclosing, ht.map_path?_ancestors hq, fun _ => Path.mem_enclosing,
      q.pairwise_depth_enclosing⟩
  labelled _ _ hx _ _ hp := contains_nodePath_iff ht hx hp
  targeted _ _ hx _ _ hs := inTargets_iff_mem_subtree ht hx hs

/-- **Traversal, climbing and paths agree on what lies in a region**, in every tree that operations
build, and elections go by the same. -/
theorem containment_agrees (ops : List Tree.Op) : Containment (Tree.new.performAll ops) :=
  containment_of_sound (Tree.sound_performAll ops)

end FleetControl.Placement
