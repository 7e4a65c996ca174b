import FleetControl.Proofs.Placement.Election
import FleetControl.Proofs.Region.Renumbering

/-!
# Elections do not see ids

Trees with the same regions and settings under different ids hold the same elections
(`Region.Tree.Renumbers.elect_eq`): clusters are found by path, and the target regions are a subtree
listed by path.

So the order in which regions are declared is nothing to what is seen of the tree and to elections,
and a list of declarations that has been applied changes nothing when it is applied again
(`Placement.declarations_unordered_idempotent`).
-/

namespace FleetControl

namespace Region.Tree

open Placement

variable {t t' : Tree} {p : Path} {id id' : RegionId}

theorem any_isCluster_eq (t : Tree) (p : Path) :
    (t.resolve p).any t.isCluster = (t.look t.settings? p).any (·.cluster) := by
  unfold look isCluster
  cases t.resolve p <;> rfl

namespace Renumbers

theorem outermostCluster_eq (h : Renumbers t t') (p : Path) :
    outermostCluster t' p = outermostCluster t p := by
  have hany : ∀ q, (t'.resolve q).any t'.isCluster = (t.resolve q).any t.isCluster := fun q => by
    rw [any_isCluster_eq, any_isCluster_eq, h.settings]
  have hroot : t'.isCluster root = t.isCluster root := hany Path.root
  simp only [outermostCluster, hroot, hany]

theorem scopeOf_eq (h : Renumbers t t') (p : Path) : scopeOf t' p = scopeOf t p := by
  rw [scopeOf, scopeOf, h.outermostCluster_eq]

/-- The target regions are listed in the same order. -/
theorem targetRegions_eq (h : Renumbers t t') (hp : t.resolve p = some id)
    (hp' : t'.resolve p = some id') : targetRegions t' p id' = targetRegions t p id := by
  have hflagged : ((t'.subtree id').filter t'.isDeploymentTarget).filterMap t'.path? =
      ((t.subtree id).filter t.isDeploymentTarget).filterMap t.path? := by
    rw [List.filterMap_filter, List.filterMap_filter]
    refine h.filterMap_eq (fun hid => by rw [path?_eq_none hid, ite_self])
      (fun hid => by rw [path?_eq_none hid, ite_self]) (h.map_path?_subtree hp hp') fun q =>
      h.look_eq fun c c' hc hc' => ?_
    rw [isDeploymentTarget, isDeploymentTarget, h.settings?_eq hc hc',
      h.sound.resolve_eq_some_iff.1 hc, h.sound'.resolve_eq_some_iff.1 hc']
  unfold targetRegions
  rw [hflagged]

theorem census_eq (h : Renumbers t t') (known : List Node) :
    Census.take t' known = Census.take t known := by
  have hadd : Census.add t' = Census.add t := by
    funext census node
    rw [Census.add, Census.add, h.outermostCluster_eq]
  rw [Census.take, Census.take, hadd]

theorem electWithin_eq (h : Renumbers t t') (hp : t.resolve p = some id)
    (hp' : t'.resolve p = some id') (request : Request) (known : List Node) :
    electWithin request t' known p id' = electWithin request t known p id := by
  simp only [electWithin, h.targetRegions_eq hp hp', h.census_eq]

/-- **Elections do not see ids.** -/
theorem elect_eq (h : Renumbers t t') (request : Request) (known : List Node) :
    elect request t' known = elect request t known := by
  cases hparse : Path.parse request.region with
  | error e => rw [elect_of_parse_error hparse, elect_of_parse_error hparse]
  | ok p =>
    rw [elect_of_parse h.sound' hparse, elect_of_parse h.sound hparse]
    cases hp : t.resolve p with
    | none => rw [h.resolve_eq_none_iff.2 hp]
    | some id =>
      obtain ⟨id', hp'⟩ := h.exists_resolve hp
      -- the scope is around the requested region, so it is a region of both trees
      obtain ⟨scopeId, hscope⟩ := Option.isSome_iff_exists.1
        (isSome_resolve_of_contains (by rw [hp]; rfl) (scopeOf_contains h.sound p))
      obtain ⟨scopeId', hscope'⟩ := h.exists_resolve hscope
      rw [hp', h.scopeOf_eq, hscope, hscope']
      exact congrArg Except.ok (h.electWithin_eq hscope hscope' request known)

end Renumbers

end Region.Tree

namespace Placement

open Region (Declaration Path Tree)

/-- **The order of declarations does not matter, and applied again they change nothing.** Declarations
with texts of their own make, in any order, trees of the same size and outline, in which the same is
seen at every path and every election comes out the same. And declarations, repeated ones among them,
that were applied to a tree leave it as it is, ids included, when they are applied again. -/
theorem declarations_unordered_idempotent :
    (∀ ds ds' : List Declaration, ds.Perm ds' → (ds.map (·.path)).Nodup →
      (∀ d ∈ ds, ∃ p, Path.parse d.path = .ok p) →
      ∃ t t', Tree.ofDeclarations ds = .ok t ∧ Tree.ofDeclarations ds' = .ok t' ∧
        t'.size = t.size ∧ t'.outline = t.outline ∧ t.SeenAlike t' ∧
        ∀ request known, elect request t' known = elect request t known) ∧
    ∀ (ops : List Tree.Op) (ds : List Declaration),
      (∀ d ∈ ds, ∃ p, Path.parse d.path = .ok p) →
      ∃ t, (Tree.new.performAll ops).apply ds = (t, .ok ()) ∧ t.apply ds = (t, .ok ()) := by
  constructor
  · intro ds ds' hperm hnodup hpaths
    obtain ⟨t, ht, hdeclared⟩ := Tree.exists_ofDeclarations hpaths
    obtain ⟨t', ht', hdeclared'⟩ := Tree.exists_ofDeclarations fun d hd =>
      hpaths d (hperm.mem_iff.2 hd)
    have h := hdeclared.renumbers hdeclared' hperm hnodup
    exact ⟨t, t', ht, ht', h.size_eq, h.outline_eq, h.seenAlike, h.elect_eq⟩
  · intro ops ds hpaths
    obtain ⟨t, happly, hdeclared⟩ := (Tree.sound_performAll ops).exists_apply hpaths
    exact ⟨t, happly, hdeclared.apply_again hpaths⟩

/-- Two regions of which the one declared first has the lower id. -/
def coasts : List Declaration :=
  [{ path := "us.east", settings := { cluster := true } }, { path := "eu" }]

theorem declarations_unordered_idempotent_coasts :
    (Tree.ofDeclarations coasts).toOption ≠ (Tree.ofDeclarations coasts.reverse).toOption ∧
    (∃ t t', Tree.ofDeclarations coasts = .ok t ∧ Tree.ofDeclarations coasts.reverse = .ok t' ∧
      t'.size = t.size ∧ t'.outline = t.outline ∧
      ∀ request known, elect request t' known = elect request t known) ∧
    ∃ t, Tree.new.apply (coasts ++ coasts) = (t, .ok ()) ∧
      t.apply (coasts ++ coasts) = (t, .ok ()) := by
  obtain ⟨hunordered, hidempotent⟩ := declarations_unordered_idempotent
  have hpaths : ∀ d ∈ coasts, ∃ p, Path.parse d.path = .ok p := by
    have hread : ∀ d ∈ coasts, d.declares ⟨["us", "east"], by decide⟩ = true ∨
        d.declares ⟨["eu"], by decide⟩ = true := by decide +kernel
    exact fun d hd => (hread d hd).elim (fun h => ⟨_, Declaration.declares_iff.1 h⟩)
      fun h => ⟨_, Declaration.declares_iff.1 h⟩
  refine ⟨by decide +kernel, ?_, hidempotent [] (coasts ++ coasts) fun d hd =>
    hpaths d ((List.mem_append.1 hd).elim id id)⟩
  obtain ⟨t, t', ht, ht', hsize, houtline, -, helect⟩ :=
    hunordered coasts coasts.reverse (List.reverse_perm coasts).symm (by decide) hpaths
  exact ⟨t, t', ht, ht', hsize, houtline, helect⟩

end Placement

end FleetControl
