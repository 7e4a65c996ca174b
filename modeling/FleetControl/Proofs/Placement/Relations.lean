import FleetControl.Proofs.Placement.Election

/-!
# Elections compared

Two elections in one tree are compared.

* The order of the known nodes is nothing to an election (`elect_perm`): the elected are listed by
  id and the clusters by path, and who is among them does not depend on the order.
* A request for a region in a cluster is widened to the outermost cluster, so requests for two
  regions in one cluster come to the same election, and so does a request for the cluster itself
  (`elect_cluster`).
* When a node becomes healthy or a label is no longer required, more nodes pass. So no elected node
  loses its place (`Eases.mem_elect`); in particular an admitted cluster stays admitted.

The whole is `election_relations`.
-/

namespace FleetControl.Placement

open Region (Path Tree)

attribute [ext] Election

variable {t : Tree} {request : Request} {known known' : List Node} {p q c : Path} {node : Node}
  {e : Election} {scope : Path} {scopeId : Region.RegionId}

/-! ### The order of the known nodes -/

theorem ascending_concerned (targets : List Path) :
    (concerned t known targets).Pairwise fun a b => compare a.1 b.1 = .lt :=
  (SortedMap.ascending _).filter _

theorem ascending_clusters :
    (electWithin request t known scope scopeId).clusters.Pairwise
      fun a b => compare a b = .lt := by
  rw [clusters_electWithin]
  exact List.pairwise_map.2 ((ascending_concerned _).filter _)

theorem ascending_rejectedClusters :
    (electWithin request t known scope scopeId).rejectedClusters.Pairwise
      fun a b => compare a b = .lt := by
  rw [rejectedClusters_electWithin]
  exact List.pairwise_map.2 ((ascending_concerned _).filter _)

theorem isConcerned_perm (hperm : known'.Perm known) {targets : List Path} :
    IsConcerned t known' targets c ↔ IsConcerned t known targets c := by
  simp only [IsConcerned, hperm.mem_iff]

theorem isAdmissible_perm (hperm : known'.Perm known) :
    IsAdmissible request t known' c ↔ IsAdmissible request t known c := by
  simp only [IsAdmissible, hperm.mem_iff]

theorem electWithin_perm (hids : (known.map (·.id)).Nodup) (hperm : known'.Perm known) :
    electWithin request t known' scope scopeId = electWithin request t known scope scopeId := by
  have hids' : (known'.map (·.id)).Nodup := (hperm.map _).nodup_iff.2 hids
  have hclusters : (electWithin request t known' scope scopeId).clusters =
      (electWithin request t known scope scopeId).clusters :=
    SortedMap.eq_of_ascending (fun c => c) ascending_clusters ascending_clusters fun c => by
      rw [mem_clusters_iff, mem_clusters_iff, isConcerned_perm hperm, isAdmissible_perm hperm]
  refine Election.ext rfl rfl ?_ hclusters ?_
  · refine SortedMap.eq_of_ascending (fun node : Node => node.id) ascending_electWithin
      ascending_electWithin fun node => ?_
    rw [mem_electWithin_iff hids, mem_electWithin_iff hids', hclusters, hperm.mem_iff]
  · refine SortedMap.eq_of_ascending (fun c => c) ascending_rejectedClusters
      ascending_rejectedClusters fun c => ?_
    rw [mem_rejectedClusters_iff, mem_rejectedClusters_iff, isConcerned_perm hperm,
      isAdmissible_perm hperm]

/-- **The order of the known nodes does not matter.** -/
theorem elect_perm (ht : t.Sound) (hids : (known.map (·.id)).Nodup) (hperm : known'.Perm known) :
    elect request t known' = elect request t known := by
  cases hp : Path.parse request.region with
  | error err => rw [elect_of_parse_error hp, elect_of_parse_error hp]
  | ok p => simp only [elect_of_parse ht hp, electWithin_perm hids hperm]

/-! ### Regions in one cluster -/

/-- The election for a region in a cluster depends on the outermost cluster alone. -/
theorem elect_of_isOutermost (ht : t.Sound) {o : Path} {text : String}
    (ho : IsOutermost t p o) (hp : Path.parse text = .ok p) (hres : (t.resolve p).isSome) :
    elect { request with region := text } t known =
      .ok (electWithin request t known o ((t.resolve o).getD Tree.root)) := by
  have hscope : scopeOf t p = o := by
    rw [scopeOf, (outermostCluster_eq_some_iff ht).2 ho, Option.getD_some]
  obtain ⟨id, hid⟩ := Option.isSome_iff_exists.1 hres
  rw [elect_of_parse ht hp, hid, hscope]
  rfl

/-- **Requests for two regions in one cluster come to the same election**, and so does one for the
scope that it reports. -/
theorem elect_cluster (ht : t.Sound) (hc : IsCluster t c) {text text' : String}
    (hp : Path.parse text = .ok p) (hq : Path.parse text' = .ok q)
    (hres : (t.resolve p).isSome) (hres' : (t.resolve q).isSome) (hcp : c.contains p = true)
    (hcq : c.contains q = true) : ∃ e scope,
      elect { request with region := text } t known = .ok e ∧
      elect { request with region := text' } t known = .ok e ∧
      e.scope = some scope ∧ elect { request with region := scope.toString } t known = .ok e := by
  obtain ⟨o, hop, hoq⟩ := outermostCluster_congr ht hc hcp hcq
  have hp' := isOutermost_of_outermostCluster ht hop
  have hq' := isOutermost_of_outermostCluster ht hoq
  -- the outermost cluster lies in itself
  have ho : IsOutermost t o o := hp'.of_cluster hp'.cluster hp'.around (Path.contains_refl o)
  have hoRes : (t.resolve o).isSome := Tree.isSome_resolve_of_contains hres hp'.around
  exact ⟨_, o, elect_of_isOutermost ht hp' hp hres, elect_of_isOutermost ht hq' hq hres', rfl,
    elect_of_isOutermost ht ho o.parse_toString hoRes⟩

/-! ### Nodes that recover and labels that are dropped -/

/-- The node with an id is healthy from now on; others stay as they are. -/
def heal (id : String) (node : Node) : Node :=
  if node.id = id then { node with healthy := true } else node

/-- A request for the same region and nodes that change, so that no node that passes changes or
passes no longer. -/
structure Eases (request request' : Request) (change : Node → Node) : Prop where
  region : request'.region = request.region
  strictRegion : request'.strictRegion = request.strictRegion
  id : ∀ node, (change node).id = node.id
  place : ∀ node, nodePath (change node) = nodePath node
  kept : ∀ {node}, passes request node = true → change node = node
  passes : ∀ {node}, passes request node = true → passes request' node = true

theorem eases_heal (request : Request) (id : String) : Eases request request (heal id) where
  region := rfl
  strictRegion := rfl
  id node := by unfold heal; split <;> rfl
  place node := by unfold heal; split <;> rfl
  kept {node} h := by
    have hhealthy : node.healthy = true := (passes_iff.1 h).1
    cases node
    subst hhealthy
    exact ite_self _
  passes h := h

theorem eases_erase (request : Request) (label : String) : Eases request
    { request with requiredLabels := request.requiredLabels.erase label } fun node => node where
  region := rfl
  strictRegion := rfl
  id _ := rfl
  place _ := rfl
  kept _ := rfl
  passes {node} h := by
    obtain ⟨hhealthy, hcarries⟩ := passes_iff.1 h
    refine passes_iff.2 ⟨hhealthy, List.all_eq_true.2 fun (k, v) hkv => ?_⟩
    have hget : (request.requiredLabels.erase label).get? k = some v := SortedMap.mem_toList.1 hkv
    rw [SortedMap.get?_erase] at hget
    split at hget
    · cases hget
    · exact List.all_eq_true.1 hcarries (k, v) (SortedMap.mem_toList.2 hget)

namespace Eases

variable {request' : Request} {change : Node → Node} (h : Eases request request' change)
include h

theorem isConcerned {targets : List Path} (hc : IsConcerned t known targets c) :
    IsConcerned t (known.map change) targets c := by
  obtain ⟨member, hmember, ho, hin⟩ := hc
  refine ⟨change member, List.mem_map_of_mem hmember, by rwa [h.place], ?_⟩
  rwa [inTargets, h.place]

theorem isAdmissible (hadm : IsAdmissible request t known c) :
    IsAdmissible request' t (known.map change) c := by
  intro node hnode ho
  obtain ⟨member, hmember, rfl⟩ := List.mem_map.1 hnode
  rw [h.place] at ho
  have hpass := hadm member hmember ho
  rw [h.kept hpass]
  exact h.passes hpass

/-- Within one scope the elected stay elected. -/
theorem mem_electWithin (hids : (known.map (·.id)).Nodup)
    (hnode : node ∈ (electWithin request t known scope scopeId).nodes) :
    node ∈ (electWithin request' t (known.map change) scope scopeId).nodes := by
  have hsame : (known.map change).map (·.id) = known.map (·.id) := by
    rw [List.map_map]
    exact List.map_congr_left fun node _ => h.id node
  have hids' : ((known.map change).map (·.id)).Nodup := hsame ▸ hids
  have hkept (hknown : node ∈ known) (hpass : Placement.passes request node = true) :
      node ∈ known.map change := List.mem_map.2 ⟨node, hknown, h.kept hpass⟩
  obtain ⟨hknown, ⟨ho, hin, hpass⟩ | ⟨c, ho, hc⟩⟩ := (mem_electWithin_iff hids).1 hnode
  · exact (mem_electWithin_iff hids').2 ⟨hkept hknown hpass, .inl ⟨ho, hin, h.passes hpass⟩⟩
  · obtain ⟨hconcerned, hadm⟩ := mem_clusters_iff.1 hc
    have hc' := mem_clusters_iff.2 ⟨h.isConcerned hconcerned, h.isAdmissible hadm⟩
    exact (mem_electWithin_iff hids').2 ⟨hkept hknown (hadm node hknown ho), .inr ⟨c, ho, hc'⟩⟩

/-- **The elected stay elected** when more nodes pass. -/
theorem mem_elect (ht : t.Sound) (hids : (known.map (·.id)).Nodup)
    (he : elect request t known = .ok e) : ∃ e',
      elect request' t (known.map change) = .ok e' ∧ ∀ node ∈ e.nodes, node ∈ e'.nodes := by
  cases hp : Path.parse request.region with
  | error err =>
    rw [elect_of_parse_error hp] at he
    cases he
  | ok p =>
    rw [elect_of_parse ht hp] at he
    rw [elect_of_parse ht (h.region ▸ hp), h.region, h.strictRegion]
    cases hres : t.resolve p with
    | none =>
      rw [hres] at he
      exact ⟨e, he, fun node hnode => hnode⟩
    | some requested =>
      rw [hres] at he
      obtain rfl := Except.ok.inj he
      exact ⟨_, rfl, fun node => h.mem_electWithin hids⟩

end Eases

/-! ### Together -/

/-- How the elections for a request and known nodes compare with others in the same tree. -/
structure Relations (t : Tree) (request : Request) (known : List Node) : Prop where
  /-- The known nodes in another order come to the same. -/
  reordered : ∀ known', known'.Perm known → elect request t known' = elect request t known
  /-- Requests that ask for two regions in one cluster come to the same, and so does one that asks
  for the scope reported. -/
  widened : ∀ c, IsCluster t c → ∀ text text' p q, Path.parse text = .ok p →
    Path.parse text' = .ok q → (t.resolve p).isSome → (t.resolve q).isSome →
    c.contains p = true → c.contains q = true → ∃ e scope,
      elect { request with region := text } t known = .ok e ∧
      elect { request with region := text' } t known = .ok e ∧
      e.scope = some scope ∧ elect { request with region := scope.toString } t known = .ok e
  /-- When a node becomes healthy the elected stay elected. -/
  healed : ∀ id e, elect request t known = .ok e →
    ∃ e', elect request t (known.map (heal id)) = .ok e' ∧ ∀ node ∈ e.nodes, node ∈ e'.nodes
  /-- When a label is no longer required the elected stay elected. -/
  dropped : ∀ label e, elect request t known = .ok e → ∃ e',
    elect { request with requiredLabels := request.requiredLabels.erase label } t known = .ok e' ∧
      ∀ node ∈ e.nodes, node ∈ e'.nodes

theorem relations_of_sound (ht : t.Sound) (request : Request) (hids : (known.map (·.id)).Nodup) :
    Relations t request known where
  reordered known' := elect_perm ht hids
  widened c hc text text' p q hp hq hres hres' := elect_cluster ht hc hp hq hres hres'
  healed id e := (eases_heal request id).mem_elect ht hids
  dropped label e he := by
    have h := (eases_erase request label).mem_elect ht hids he
    rwa [List.map_id'] at h

/-- **Elections compared**: in every tree that operations build, for every request and for all known
nodes with distinct ids, the order of the nodes does not matter, regions in one cluster come to one
election, and no elected node loses its place when a node recovers or a label is dropped. -/
theorem election_relations (ops : List Tree.Op) (request : Request) (known : List Node)
    (hids : (known.map (·.id)).Nodup) : Relations (Tree.new.performAll ops) request known :=
  relations_of_sound (Tree.sound_performAll ops) request hids

/-- One node of the rack is not healthy, so only the hall is elected; when it recovers the rack is
elected too, and the hall stays. -/
theorem election_relations_rackAndHall :
    let tree := Tree.new.performAll rackAndHall
    let request : Request := { container := { image := "web" }, region := "eu", scale := 2 }
    let known := [nodeIn "e" "eu.hall", { nodeIn "d" "eu.rack" with healthy := false },
      nodeIn "c" "eu.rack.shelf"]
    let ids := fun known => (elect request tree known).toOption.map fun e => e.nodes.map (·.id)
    (known.map (·.id)).Nodup ∧ Relations tree request known ∧
      ids known = some ["e"] ∧ ids (known.map (heal "d")) = some ["c", "d", "e"] := by
  intro tree request known ids
  have hids : (known.map (·.id)).Nodup := by decide +kernel
  exact ⟨hids, election_relations rackAndHall request known hids, by decide +kernel,
    by decide +kernel⟩

end FleetControl.Placement
