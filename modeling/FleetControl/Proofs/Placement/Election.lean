import FleetControl.Proofs.Placement.Targets
import FleetControl.Proofs.Region.Operations

/-!
# Elections are sound, exact and all or nothing for a cluster

The cluster that a node counts with is the outermost one around it (`outermostCluster_eq_some_iff`),
so two nodes in one cluster, however deep, count with the same (`outermostCluster_congr`). A census
therefore sorts the known nodes by their outermost clusters (`Census.mem_independent`,
`Census.get?_members`), and who is elected can be said node by node (`mem_electWithin_iff`).

The scope of an election is no smaller than any cluster that reaches into it, hence admitting whole
clusters never elects a node outside the scope (`Exact.eligible`). The whole is `exact_of_elect`.
-/

namespace FleetControl.Placement

open Region (Path Tree)

variable {t : Tree} {request : Request} {known : List Node} {p q c : Path} {node : Node}
  {id : Region.RegionId}

/-! ### Clusters -/

/-- The region with the path is flagged as a cluster. -/
def IsCluster (t : Tree) (c : Path) : Prop := ∃ id, t.path? id = some c ∧ t.isCluster id = true

/-- The cluster lies around the path, and around every other cluster that does. -/
structure IsOutermost (t : Tree) (p c : Path) : Prop where
  cluster : IsCluster t c
  around : c.contains p = true
  widest : ∀ c', IsCluster t c' → c'.contains p = true → c.contains c' = true

theorem IsOutermost.eq {c' : Path} (h : IsOutermost t p c) (h' : IsOutermost t p c') : c = c' :=
  Path.contains_antisymm (h.widest c' h'.cluster h'.around) (h'.widest c h.cluster h.around)

/-- In one cluster there is one outermost cluster. -/
theorem IsOutermost.of_cluster {o : Path} (h : IsOutermost t p o) (hc : IsCluster t c)
    (hp : c.contains p = true) (hq : c.contains q = true) : IsOutermost t q o where
  cluster := h.cluster
  around := Path.contains_trans (h.widest c hc hp) hq
  widest c' hc' hq' := by
    rcases Path.contains_or_contains hq hq' with hcc | hcc
    · exact Path.contains_trans (h.widest c hc hp) hcc
    · exact h.widest c' hc' (Path.contains_trans hcc hp)

theorem any_isCluster_iff (ht : t.Sound) : (t.resolve c).any t.isCluster = true ↔ IsCluster t c := by
  rw [Option.any_eq_true]
  exact exists_congr fun id => by rw [ht.resolve_eq_some_iff]

theorem isCluster_root_iff (ht : t.Sound) :
    t.isCluster Tree.root = true ↔ IsCluster t Path.root := by
  rw [← any_isCluster_iff ht, Tree.resolve_root, Option.any_some]

theorem isOutermost_of_outermostCluster (ht : t.Sound) (h : outermostCluster t p = some c) :
    IsOutermost t p c := by
  unfold outermostCluster at h
  split at h
  · next hroot =>
    obtain rfl := Option.some.inj h
    exact ⟨(isCluster_root_iff ht).1 hroot, Path.root_contains p, fun c' _ _ => Path.root_contains c'⟩
  · next hroot =>
    rw [Path.prefixes, List.find?_map, Option.map_eq_some_iff] at h
    obtain ⟨n, hn, rfl⟩ := h
    rw [List.find?_range_eq_some] at hn
    obtain ⟨hcluster, -, hfirst⟩ := hn
    refine ⟨(any_isCluster_iff ht).1 hcluster, Path.take_contains p _, fun c' hc' hp' => ?_⟩
    have hne : c' ≠ Path.root := by
      rintro rfl
      exact hroot ((isCluster_root_iff ht).2 hc')
    have hpos : c'.depth ≠ 0 := fun h0 =>
      hne (Path.segments_eq_nil.1 (List.length_eq_zero_iff.1 h0))
    obtain ⟨m, hm⟩ := Nat.exists_eq_succ_of_ne_zero hpos
    have htake : c' = p.take (m + 1) :=
      (Path.contains_iff_eq_take.1 hp').trans (congrArg p.take hm)
    have hle : n ≤ m := by
      by_contra hlt
      have := hfirst m (not_le.1 hlt)
      rw [Function.comp_apply, ← htake, (any_isCluster_iff ht).2 hc'] at this
      cases this
    rw [htake, Path.contains_iff]
    exact List.take_prefix_take_left (Nat.succ_le_succ hle)

theorem not_contains_of_outermostCluster (ht : t.Sound) (h : outermostCluster t p = none)
    (hc : IsCluster t c) : c.contains p = false := by
  unfold outermostCluster at h
  split at h
  · cases h
  · next hroot =>
    by_contra hp
    rw [Bool.not_eq_false] at hp
    have hne : c ≠ Path.root := by
      rintro rfl
      exact hroot ((isCluster_root_iff ht).2 hc)
    have := List.find?_eq_none.1 h c (Path.mem_prefixes.2 ⟨hp, hne⟩)
    exact this ((any_isCluster_iff ht).2 hc)

/-- **The outermost cluster** is found. -/
theorem outermostCluster_eq_some_iff (ht : t.Sound) :
    outermostCluster t p = some c ↔ IsOutermost t p c := by
  refine ⟨isOutermost_of_outermostCluster ht, fun h => ?_⟩
  cases ho : outermostCluster t p with
  | none =>
    have := not_contains_of_outermostCluster ht ho h.cluster
    rw [h.around] at this
    cases this
  | some o => exact congrArg some ((isOutermost_of_outermostCluster ht ho).eq h)

theorem outermostCluster_eq_none_iff (ht : t.Sound) :
    outermostCluster t p = none ↔ ∀ c, IsCluster t c → c.contains p = false := by
  refine ⟨fun h c hc => not_contains_of_outermostCluster ht h hc, fun h => ?_⟩
  refine Option.eq_none_iff_forall_ne_some.2 fun c hc => ?_
  have hout := isOutermost_of_outermostCluster ht hc
  exact absurd hout.around (by simp [h c hout.cluster])

/-- What lies in one cluster has one outermost cluster. -/
theorem outermostCluster_congr (ht : t.Sound) (hc : IsCluster t c) (hp : c.contains p = true)
    (hq : c.contains q = true) :
    ∃ o, outermostCluster t p = some o ∧ outermostCluster t q = some o := by
  cases ho : outermostCluster t p with
  | none =>
    rw [not_contains_of_outermostCluster ht ho hc] at hp
    cases hp
  | some o =>
    have hout := (isOutermost_of_outermostCluster ht ho).of_cluster hc hp hq
    exact ⟨o, rfl, (outermostCluster_eq_some_iff ht).2 hout⟩

/-! ### Scope and targets -/

/-- The region that a request for a path is widened to. -/
def scopeOf (t : Tree) (p : Path) : Path := (outermostCluster t p).getD p

theorem scopeOf_contains (ht : t.Sound) (p : Path) : (scopeOf t p).contains p = true := by
  unfold scopeOf
  cases ho : outermostCluster t p with
  | none => exact Path.contains_refl p
  | some o => exact (isOutermost_of_outermostCluster ht ho).around

/-- No cluster reaches out of a scope that it shares a path with. -/
theorem scopeOf_contains_of_cluster (ht : t.Sound) (hc : IsCluster t c)
    (hcq : c.contains q = true) (hq : (scopeOf t p).contains q = true) :
    (scopeOf t p).contains c = true := by
  rcases Path.contains_or_contains hcq hq with h | h
  · -- a cluster around the scope lies around the request, so the scope is the outermost of them
    have hcp := Path.contains_trans h (scopeOf_contains ht p)
    obtain ⟨o, ho, -⟩ := outermostCluster_congr ht hc hcp hcp
    have hscope : scopeOf t p = o := by rw [scopeOf, ho, Option.getD_some]
    rw [hscope]
    exact (isOutermost_of_outermostCluster ht ho).widest c hc hcp
  · exact h

/-- A region with the path is flagged as a deployment target. -/
def IsTarget (t : Tree) (p : Path) : Prop :=
  ∃ id, t.path? id = some p ∧ t.isDeploymentTarget id = true

/-- The target regions of a scope are those flagged in it, or it alone. -/
theorem mem_targetRegions_iff (ht : t.Sound) (hp : t.path? id = some p) :
    q ∈ targetRegions t p id ↔ (IsTarget t q ∧ p.contains q = true) ∨
      (q = p ∧ ∀ r, IsTarget t r → p.contains r = false) := by
  have hmem (r : Path) : r ∈ ((t.subtree id).filter t.isDeploymentTarget).filterMap t.path? ↔
      IsTarget t r ∧ p.contains r = true := by
    simp only [List.mem_filterMap, List.mem_filter, ht.mem_subtree_iff hp]
    constructor
    · rintro ⟨x, ⟨⟨r', hr', hpr⟩, hflag⟩, hr⟩
      rw [hr, Option.some.injEq] at hr'
      exact ⟨⟨x, hr, hflag⟩, hr' ▸ hpr⟩
    · rintro ⟨⟨x, hr, hflag⟩, hpr⟩
      exact ⟨x, ⟨⟨r, hr, hpr⟩, hflag⟩, hr⟩
  unfold targetRegions
  split
  · next hnil =>
    rw [hnil] at hmem
    have hnone : ∀ r, IsTarget t r → p.contains r = false := fun r hr =>
      Bool.eq_false_iff.2 fun hpr => List.not_mem_nil ((hmem r).2 ⟨hr, hpr⟩)
    rw [List.mem_singleton]
    refine ⟨fun h => .inr ⟨h, hnone⟩, ?_⟩
    rintro (⟨hq, hpq⟩ | ⟨rfl, -⟩)
    · exact absurd ((hmem q).2 ⟨hq, hpq⟩) List.not_mem_nil
    · rfl
  · next hne =>
    rw [hmem]
    refine (or_iff_left ?_).symm
    rintro ⟨-, hnone⟩
    refine hne (List.eq_nil_iff_forall_not_mem.2 fun r hr => ?_)
    obtain ⟨htarget, hpr⟩ := (hmem r).1 hr
    rw [hnone r htarget] at hpr
    cases hpr

/-- Every target region lies in the scope. -/
theorem contains_of_mem_targetRegions (ht : t.Sound) (hp : t.path? id = some p)
    (hq : q ∈ targetRegions t p id) : p.contains q = true := by
  rcases (mem_targetRegions_iff ht hp).1 hq with ⟨-, h⟩ | ⟨rfl, -⟩
  · exact h
  · exact Path.contains_refl q

/-! ### The census -/

namespace Census

theorem take_concat (t : Tree) (known : List Node) (node : Node) :
    take t (known ++ [node]) = (take t known).add t node := by
  simp [take]

/-- The nodes outside clusters are listed under their ids. -/
theorem get?_independent (hids : (known.map (·.id)).Nodup) {i : String} :
    (take t known).independent.get? i = some node ↔
      node ∈ known ∧ node.id = i ∧ outermostCluster t (nodePath node) = none := by
  induction known using List.reverseRecOn with
  | nil => simp [take, show (({} : Census).independent.get? i) = none from rfl]
  | append_singleton init last ih =>
    rw [List.map_append, List.map_singleton, List.nodup_append] at hids
    obtain ⟨hinit, -, hdisj⟩ := hids
    have hother : ∀ n ∈ init, n.id ≠ last.id := fun n hn =>
      hdisj n.id (List.mem_map_of_mem hn) last.id List.mem_cons_self
    rw [take_concat, add]
    cases ho : outermostCluster t (nodePath last) with
    | some c =>
      simp only [ih hinit, List.mem_append, List.mem_singleton, or_and_right]
      refine (or_iff_left ?_).symm
      rintro ⟨rfl, -, hnone⟩
      rw [ho] at hnone
      cases hnone
    | none =>
      by_cases hi : i = last.id
      · rw [hi, SortedMap.get?_insert_self, Option.some.injEq]
        constructor
        · rintro rfl
          exact ⟨by simp, rfl, ho⟩
        · rintro ⟨hmem, hid, -⟩
          rcases List.mem_append.1 hmem with hn | hn
          · exact absurd hid (hother node hn)
          · exact (List.mem_singleton.1 hn).symm
      · rw [SortedMap.get?_insert_of_ne hi, ih hinit, List.mem_append, List.mem_singleton,
          or_and_right]
        refine (or_iff_left ?_).symm
        rintro ⟨rfl, rfl, -⟩
        exact hi rfl

theorem mem_independent (hids : (known.map (·.id)).Nodup) :
    node ∈ (take t known).independent.values ↔
      node ∈ known ∧ outermostCluster t (nodePath node) = none := by
  simp only [SortedMap.mem_values, get?_independent hids]
  exact ⟨fun ⟨_, h, _, ho⟩ => ⟨h, ho⟩, fun ⟨h, ho⟩ => ⟨_, h, rfl, ho⟩⟩

/-- The known nodes that count with a cluster. -/
def membersOf (t : Tree) (known : List Node) (c : Path) : List Node :=
  known.filter fun node => outermostCluster t (nodePath node) == some c

theorem mem_membersOf : node ∈ membersOf t known c ↔
    node ∈ known ∧ outermostCluster t (nodePath node) = some c := by
  simp [membersOf]

theorem getD_members : ((take t known).members.get? c).getD [] = membersOf t known c := by
  induction known using List.reverseRecOn with
  | nil => rfl
  | append_singleton init last ih =>
    rw [take_concat, add, membersOf, List.filter_append, ← membersOf]
    cases ho : outermostCluster t (nodePath last) with
    | none => simpa [ho] using ih
    | some o =>
      by_cases hc : c = o
      · subst hc
        simp [SortedMap.get?_insert_self, ih, ho]
      · simp [SortedMap.get?_insert_of_ne hc, ih, ho, Ne.symm hc]

theorem members_ne_nil (h : (take t known).members.get? c = some []) : False := by
  induction known using List.reverseRecOn with
  | nil => cases h
  | append_singleton init last ih =>
    rw [take_concat, add] at h
    cases ho : outermostCluster t (nodePath last) with
    | none => exact ih (by simpa [ho] using h)
    | some o =>
      by_cases hc : c = o
      · subst hc
        simp [ho, SortedMap.get?_insert_self] at h
      · exact ih (by simpa [ho, SortedMap.get?_insert_of_ne hc] using h)

/-- The members of a cluster are the known nodes that count with it. -/
theorem get?_members {nodes : List Node} : (take t known).members.get? c = some nodes ↔
    nodes = membersOf t known c ∧ nodes ≠ [] := by
  constructor
  · intro h
    have hnodes : ((take t known).members.get? c).getD [] = membersOf t known c := getD_members
    rw [h, Option.getD_some] at hnodes
    exact ⟨hnodes, fun hnil => members_ne_nil (hnil ▸ h)⟩
  · rintro ⟨rfl, hne⟩
    have hnodes : ((take t known).members.get? c).getD [] = membersOf t known c := getD_members
    cases hget : (take t known).members.get? c with
    | none => exact absurd (by rw [← hnodes, hget, Option.getD_none]) hne
    | some nodes => rw [← hnodes, hget, Option.getD_some]

end Census

/-! ### Who is elected -/

/-- A cluster has a member in a target region. -/
def IsConcerned (t : Tree) (known : List Node) (targets : List Path) (c : Path) : Prop :=
  ∃ node ∈ known, outermostCluster t (nodePath node) = some c ∧ inTargets targets node = true

/-- All members of a cluster are healthy and carry the labels. -/
def IsAdmissible (request : Request) (t : Tree) (known : List Node) (c : Path) : Prop :=
  ∀ node ∈ known, outermostCluster t (nodePath node) = some c → passes request node = true

/-- The clusters that have a member in a target region, with their members. -/
def concerned (t : Tree) (known : List Node) (targets : List Path) : List (Path × List Node) :=
  (Census.take t known).members.toList.filter fun (_, members) => members.any (inTargets targets)

theorem mem_concerned_iff {targets : List Path} {nodes : List Node} :
    (c, nodes) ∈ concerned t known targets ↔
      nodes = Census.membersOf t known c ∧ IsConcerned t known targets c := by
  rw [concerned, List.mem_filter, SortedMap.mem_toList, Census.get?_members, List.any_eq_true]
  constructor
  · rintro ⟨⟨rfl, -⟩, node, hnode, htarget⟩
    obtain ⟨hknown, ho⟩ := Census.mem_membersOf.1 hnode
    exact ⟨rfl, node, hknown, ho, htarget⟩
  · rintro ⟨rfl, node, hknown, ho, htarget⟩
    have hnode := Census.mem_membersOf.2 ⟨hknown, ho⟩
    exact ⟨⟨rfl, List.ne_nil_of_mem hnode⟩, node, hnode, htarget⟩

theorem nodup_concerned (targets : List Path) : ((concerned t known targets).map (·.1)).Nodup :=
  (SortedMap.nodup_keys _).sublist (List.filter_sublist.map _)

theorem all_passes_membersOf :
    (Census.membersOf t known c).all (passes request) = true ↔ IsAdmissible request t known c := by
  simp only [List.all_eq_true, Census.mem_membersOf, and_imp, IsAdmissible]

/-- Those elected, the nodes outside clusters first and then the admitted clusters. -/
def elected (request : Request) (t : Tree) (known : List Node) (targets : List Path) : List Node :=
  ((Census.take t known).independent.values.filter fun node =>
      inTargets targets node && passes request node) ++
    ((concerned t known targets).filter fun (_, members) =>
      members.all (passes request)).flatMap (·.2)

theorem mem_elected_iff (hids : (known.map (·.id)).Nodup) {targets : List Path} :
    node ∈ elected request t known targets ↔ node ∈ known ∧
      ((outermostCluster t (nodePath node) = none ∧ inTargets targets node = true ∧
          passes request node = true) ∨
        ∃ c, outermostCluster t (nodePath node) = some c ∧ IsConcerned t known targets c ∧
          IsAdmissible request t known c) := by
  simp only [elected, List.mem_append, List.mem_filter, Census.mem_independent hids,
    Bool.and_eq_true, List.mem_flatMap, Prod.exists, mem_concerned_iff]
  constructor
  · rintro (⟨⟨hknown, ho⟩, h⟩ | ⟨c, nodes, ⟨⟨rfl, hc⟩, hall⟩, hnode⟩)
    · exact ⟨hknown, .inl ⟨ho, h⟩⟩
    · obtain ⟨hknown, ho⟩ := Census.mem_membersOf.1 hnode
      exact ⟨hknown, .inr ⟨c, ho, hc, all_passes_membersOf.1 hall⟩⟩
  · rintro ⟨hknown, ⟨ho, h⟩ | ⟨c, ho, hc, hadm⟩⟩
    · exact .inl ⟨⟨hknown, ho⟩, h⟩
    · exact .inr ⟨c, _, ⟨⟨rfl, hc⟩, all_passes_membersOf.2 hadm⟩,
        Census.mem_membersOf.2 ⟨hknown, ho⟩⟩

section Within

variable {scope : Path} {scopeId : Region.RegionId}

theorem clusters_electWithin : (electWithin request t known scope scopeId).clusters =
    ((concerned t known (targetRegions t scope scopeId)).filter
      fun (_, members) => members.all (passes request)).map (·.1) := by
  simp only [electWithin, List.partition_eq_filter_filter]
  rfl

theorem rejectedClusters_electWithin :
    (electWithin request t known scope scopeId).rejectedClusters =
      ((concerned t known (targetRegions t scope scopeId)).filter
        fun (_, members) => !members.all (passes request)).map (·.1) := by
  simp only [electWithin, List.partition_eq_filter_filter]
  rfl

theorem nodes_electWithin : (electWithin request t known scope scopeId).nodes =
    (SortedMap.ofList ((elected request t known (targetRegions t scope scopeId)).map
      fun node => (node.id, node))).values := by
  simp only [electWithin, List.partition_eq_filter_filter]
  rfl

/-- The clusters admitted. -/
theorem mem_clusters_iff : c ∈ (electWithin request t known scope scopeId).clusters ↔
    IsConcerned t known (targetRegions t scope scopeId) c ∧ IsAdmissible request t known c := by
  simp only [clusters_electWithin, List.mem_map, Prod.exists, exists_and_right, exists_eq_right,
    List.mem_filter, mem_concerned_iff]
  constructor
  · rintro ⟨nodes, ⟨rfl, hc⟩, hall⟩
    exact ⟨hc, all_passes_membersOf.1 hall⟩
  · rintro ⟨hc, hall⟩
    exact ⟨_, ⟨rfl, hc⟩, all_passes_membersOf.2 hall⟩

/-- The clusters turned away. -/
theorem mem_rejectedClusters_iff :
    c ∈ (electWithin request t known scope scopeId).rejectedClusters ↔
      IsConcerned t known (targetRegions t scope scopeId) c ∧
        ¬ IsAdmissible request t known c := by
  simp only [rejectedClusters_electWithin, List.mem_map, Prod.exists, exists_and_right,
    exists_eq_right, List.mem_filter, mem_concerned_iff, Bool.not_eq_true']
  constructor
  · rintro ⟨nodes, ⟨rfl, hc⟩, hall⟩
    exact ⟨hc, fun hadm => by simp [all_passes_membersOf.2 hadm] at hall⟩
  · rintro ⟨hc, hadm⟩
    exact ⟨_, ⟨rfl, hc⟩, Bool.eq_false_iff.2 fun hall => hadm (all_passes_membersOf.1 hall)⟩

/-- **Who is elected.** A node outside clusters is, if it lies in a target region, is healthy and
carries the labels; a node in a cluster is, if its outermost cluster is admitted. -/
theorem mem_electWithin_iff (hids : (known.map (·.id)).Nodup) :
    node ∈ (electWithin request t known scope scopeId).nodes ↔ node ∈ known ∧
      ((outermostCluster t (nodePath node) = none ∧
          inTargets (targetRegions t scope scopeId) node = true ∧ passes request node = true) ∨
        ∃ c, outermostCluster t (nodePath node) = some c ∧
          c ∈ (electWithin request t known scope scopeId).clusters) := by
  have hinj : ∀ x ∈ known, ∀ y ∈ known, x.id = y.id → x = y := List.inj_on_of_nodup_map hids
  rw [nodes_electWithin, SortedMap.mem_values_ofList, mem_elected_iff hids]
  · simp only [mem_clusters_iff]
  · intro x hx y hy
    exact hinj x ((mem_elected_iff hids).1 hx).1 y ((mem_elected_iff hids).1 hy).1

/-- The elected are listed by ascending id, so each once. -/
theorem ascending_electWithin :
    (electWithin request t known scope scopeId).nodes.Pairwise
      fun a b => compare a.id b.id = .lt := by
  rw [← List.pairwise_map (f := fun node : Node => node.id) (R := fun a b => compare a b = .lt),
    nodes_electWithin, SortedMap.map_values_ofList (fun node : Node => node.id)]
  exact List.pairwise_map.2 (SortedMap.ascending _)

end Within

/-! ### The whole election -/

/-- An election in a sound tree fails only where the requested region does not exist and has to. -/
theorem elect_of_parse (ht : t.Sound) (hp : Path.parse request.region = .ok p) :
    elect request t known = match t.resolve p with
      | none => if request.strictRegion then .error (.notFound request.region) else .ok {}
      | some _ => .ok (electWithin request t known (scopeOf t p)
          ((t.resolve (scopeOf t p)).getD Tree.root)) := by
  simp only [elect, hp, bind, Except.bind, pure, Except.pure, throw, throwThe,
    MonadExceptOf.throw]
  cases hid : t.resolve p with
  | none => rfl
  | some id =>
    have hpath := ht.resolve_eq_some_iff.1 hid
    have hsome : (t.resolve (scopeOf t p)).isSome :=
      Tree.isSome_resolve_of_contains (by rw [hid]; rfl) (scopeOf_contains ht p)
    obtain ⟨scopeId, hscope⟩ := Option.isSome_iff_exists.1 hsome
    simp only [hpath, hscope, Option.getD_some]
    rw [scopeOf] at hscope
    simp only [hscope, scopeOf]

theorem elect_of_parse_error {e : Region.Error} (hp : Path.parse request.region = .error e) :
    elect request t known = .error e := by
  simp [elect, hp, bind, Except.bind]

/-- What an election comes to, said region by region and node by node. -/
structure Exact (t : Tree) (request : Request) (known : List Node) (e : Election) : Prop where
  /-- When the requested region does not exist nobody is elected. -/
  missing : ∀ p, Path.parse request.region = .ok p → t.resolve p = none → e = {}
  /-- Otherwise the scope is the outermost cluster around the region, or the region outside
  clusters. -/
  scope : ∀ p, Path.parse request.region = .ok p → (t.resolve p).isSome →
    (∃ c, IsOutermost t p c ∧ e.scope = some c) ∨
      ((∀ c, IsCluster t c → c.contains p = false) ∧ e.scope = some p)
  /-- The target regions are those flagged in the scope, or the scope if none is. -/
  targets : ∀ s, e.scope = some s → ∀ q, q ∈ e.targetRegions ↔
    (IsTarget t q ∧ s.contains q = true) ∨ (q = s ∧ ∀ r, IsTarget t r → s.contains r = false)
  /-- The elected are listed once each by ascending id. -/
  ascending : e.nodes.Pairwise fun a b => compare a.id b.id = .lt
  /-- They are known, healthy, carry the labels and lie in the scope. -/
  eligible : ∀ node ∈ e.nodes, node ∈ known ∧ node.healthy = true ∧
    node.carries request.requiredLabels = true ∧
      ∃ s, e.scope = some s ∧ s.contains (nodePath node) = true
  /-- Of the nodes in a cluster all are elected or none is. -/
  atomic : ∀ c, IsCluster t c →
    (∀ node ∈ known, c.contains (nodePath node) = true → node ∈ e.nodes) ∨
      (∀ node ∈ known, c.contains (nodePath node) = true → node ∉ e.nodes)
  /-- Outside clusters a node is elected just if it is eligible and lies in a target region. -/
  independent : ∀ node ∈ known, (∀ c, IsCluster t c → c.contains (nodePath node) = false) →
    (node ∈ e.nodes ↔ node.healthy = true ∧ node.carries request.requiredLabels = true ∧
      ∃ target ∈ e.targetRegions, target.contains (nodePath node) = true)
  /-- Of the outermost clusters just those with a member in a target region are reported. -/
  reported : ∀ c, (c ∈ e.clusters ∨ c ∈ e.rejectedClusters) ↔ ∃ node ∈ known,
    IsOutermost t (nodePath node) c ∧
      ∃ target ∈ e.targetRegions, target.contains (nodePath node) = true
  /-- Each is reported once. -/
  once : (e.clusters ++ e.rejectedClusters).Nodup
  /-- The members of an admitted cluster are elected. -/
  admitted : ∀ c ∈ e.clusters, ∀ node ∈ known, c.contains (nodePath node) = true → node ∈ e.nodes
  /-- Those of a rejected cluster are not. -/
  rejected : ∀ c ∈ e.rejectedClusters, ∀ node ∈ known, c.contains (nodePath node) = true →
    node ∉ e.nodes

theorem inTargets_iff {targets : List Path} : inTargets targets node = true ↔
    ∃ target ∈ targets, target.contains (nodePath node) = true :=
  List.any_eq_true

theorem passes_iff : passes request node = true ↔
    node.healthy = true ∧ node.carries request.requiredLabels = true :=
  Bool.and_eq_true_iff

section Within

variable {scopeId : Region.RegionId}

/-- A cluster with a member in a target region lies in the scope. -/
theorem scopeOf_contains_of_isConcerned (ht : t.Sound)
    (hscope : t.path? scopeId = some (scopeOf t p))
    (hc : IsConcerned t known (targetRegions t (scopeOf t p) scopeId) c) :
    (scopeOf t p).contains c = true := by
  obtain ⟨member, -, ho, htarget⟩ := hc
  obtain ⟨target, hmem, hin⟩ := inTargets_iff.1 htarget
  have hout := isOutermost_of_outermostCluster ht ho
  have hscoped := Path.contains_trans (contains_of_mem_targetRegions ht hscope hmem) hin
  exact scopeOf_contains_of_cluster ht hout.cluster hout.around hscoped

theorem eligible_electWithin (ht : t.Sound) (hids : (known.map (·.id)).Nodup)
    (hscope : t.path? scopeId = some (scopeOf t p))
    (hnode : node ∈ (electWithin request t known (scopeOf t p) scopeId).nodes) :
    node ∈ known ∧ passes request node = true ∧ (scopeOf t p).contains (nodePath node) = true := by
  obtain ⟨hknown, ⟨-, htarget, hpass⟩ | ⟨c, ho, hc⟩⟩ := (mem_electWithin_iff hids).1 hnode
  · obtain ⟨target, hmem, hin⟩ := inTargets_iff.1 htarget
    exact ⟨hknown, hpass,
      Path.contains_trans (contains_of_mem_targetRegions ht hscope hmem) hin⟩
  · obtain ⟨hconcerned, hadm⟩ := mem_clusters_iff.1 hc
    have hin := (isOutermost_of_outermostCluster ht ho).around
    exact ⟨hknown, hadm node hknown ho,
      Path.contains_trans (scopeOf_contains_of_isConcerned ht hscope hconcerned) hin⟩

theorem mem_electWithin_of_outermostCluster (hids : (known.map (·.id)).Nodup) {scope : Path}
    (hknown : node ∈ known) (ho : outermostCluster t (nodePath node) = some c) :
    node ∈ (electWithin request t known scope scopeId).nodes ↔
      c ∈ (electWithin request t known scope scopeId).clusters := by
  simp [mem_electWithin_iff hids, hknown, ho]

theorem atomic_electWithin (ht : t.Sound) (hids : (known.map (·.id)).Nodup) {scope : Path}
    (hc : IsCluster t c) :
    (∀ node ∈ known, c.contains (nodePath node) = true →
        node ∈ (electWithin request t known scope scopeId).nodes) ∨
      (∀ node ∈ known, c.contains (nodePath node) = true →
        node ∉ (electWithin request t known scope scopeId).nodes) := by
  by_cases hsome : ∃ node ∈ known, c.contains (nodePath node) = true
  · -- all nodes in the cluster count with the outermost cluster of this one
    obtain ⟨witness, -, hw⟩ := hsome
    obtain ⟨o, ho, -⟩ := outermostCluster_congr ht hc hw hw
    have hcount (node : Node) (hin : c.contains (nodePath node) = true) :
        outermostCluster t (nodePath node) = some o := by
      obtain ⟨o', ho', hnode⟩ := outermostCluster_congr ht hc hw hin
      rwa [ho, ← ho'] at *
    by_cases hadm : o ∈ (electWithin request t known scope scopeId).clusters
    · exact .inl fun node hknown hin =>
        (mem_electWithin_of_outermostCluster hids hknown (hcount node hin)).2 hadm
    · exact .inr fun node hknown hin helected =>
        hadm ((mem_electWithin_of_outermostCluster hids hknown (hcount node hin)).1 helected)
  · exact .inl fun node hknown hin => absurd ⟨node, hknown, hin⟩ hsome

theorem nodup_reported_electWithin {scope : Path} :
    ((electWithin request t known scope scopeId).clusters ++
      (electWithin request t known scope scopeId).rejectedClusters).Nodup := by
  refine List.nodup_append.2 ⟨?_, ?_, ?_⟩
  · rw [clusters_electWithin]
    exact (nodup_concerned _).sublist (List.filter_sublist.map _)
  · rw [rejectedClusters_electWithin]
    exact (nodup_concerned _).sublist (List.filter_sublist.map _)
  · rintro c hc _ hr rfl
    exact (mem_rejectedClusters_iff.1 hr).2 (mem_clusters_iff.1 hc).2

/-- With a scope that exists the election is exact. -/
theorem exact_electWithin (ht : t.Sound) (hids : (known.map (·.id)).Nodup)
    (hp : Path.parse request.region = .ok p) (hres : (t.resolve p).isSome)
    (hscope : t.path? scopeId = some (scopeOf t p)) :
    Exact t request known (electWithin request t known (scopeOf t p) scopeId) where
  missing p' hp' hnone := by
    rw [hp, Except.ok.injEq] at hp'
    simp [hp', hnone] at hres
  scope p' hp' _ := by
    rw [hp, Except.ok.injEq] at hp'
    subst hp'
    cases ho : outermostCluster t p with
    | none =>
      refine .inr ⟨(outermostCluster_eq_none_iff ht).1 ho, ?_⟩
      simp [electWithin, scopeOf, ho]
    | some c =>
      refine .inl ⟨c, isOutermost_of_outermostCluster ht ho, ?_⟩
      simp [electWithin, scopeOf, ho]
  targets s hs q := by
    obtain rfl : scopeOf t p = s := Option.some.inj hs
    exact mem_targetRegions_iff ht hscope
  ascending := ascending_electWithin
  eligible node hnode := by
    obtain ⟨hknown, hpass, hin⟩ := eligible_electWithin ht hids hscope hnode
    obtain ⟨hhealthy, hcarries⟩ := passes_iff.1 hpass
    exact ⟨hknown, hhealthy, hcarries, _, rfl, hin⟩
  atomic c hc := atomic_electWithin ht hids hc
  independent node hknown hout := by
    have ho := (outermostCluster_eq_none_iff ht).2 hout
    simp only [mem_electWithin_iff hids, hknown, ho, true_and, reduceCtorEq, false_and,
      exists_const, or_false]
    rw [inTargets_iff, passes_iff, and_comm, and_assoc]
    rfl
  reported c := by
    rw [mem_clusters_iff, mem_rejectedClusters_iff, ← and_or_left, and_iff_left (em _)]
    refine exists_congr fun node => and_congr_right fun _ => ?_
    rw [outermostCluster_eq_some_iff ht, inTargets_iff]
    rfl
  once := nodup_reported_electWithin
  admitted c hc node hknown hin := by
    obtain ⟨⟨member, -, ho, -⟩, -⟩ := mem_clusters_iff.1 hc
    have hout := isOutermost_of_outermostCluster ht ho
    have hnode := (outermostCluster_eq_some_iff ht).2
      (hout.of_cluster hout.cluster hout.around hin)
    exact (mem_electWithin_of_outermostCluster hids hknown hnode).2 hc
  rejected c hc node hknown hin helected := by
    obtain ⟨⟨member, -, ho, -⟩, hadm⟩ := mem_rejectedClusters_iff.1 hc
    have hout := isOutermost_of_outermostCluster ht ho
    have hnode := (outermostCluster_eq_some_iff ht).2
      (hout.of_cluster hout.cluster hout.around hin)
    have hclusters := (mem_electWithin_of_outermostCluster hids hknown hnode).1 helected
    exact hadm (mem_clusters_iff.1 hclusters).2

end Within

/-- The election without a scope elects nobody. -/
theorem exact_empty (hp : Path.parse request.region = .ok p) (hnone : t.resolve p = none) :
    Exact t request known {} where
  missing _ _ _ := rfl
  scope p' hp' hsome := by
    rw [hp, Except.ok.injEq] at hp'
    simp [← hp', hnone] at hsome
  targets s hs := by cases hs
  ascending := .nil
  eligible node hnode := by cases hnode
  atomic _ _ := .inr fun _ _ _ hnode => by cases hnode
  independent _ _ _ := by simp
  reported _ := by simp
  once := .nil
  admitted c hc := by cases hc
  rejected c hc := by cases hc

theorem exact_of_sound (ht : t.Sound) (hids : (known.map (·.id)).Nodup) {e : Election}
    (he : elect request t known = .ok e) : Exact t request known e := by
  cases hp : Path.parse request.region with
  | error err =>
    rw [elect_of_parse_error hp] at he
    cases he
  | ok p =>
    rw [elect_of_parse ht hp] at he
    cases hres : t.resolve p with
    | none =>
      rw [hres] at he
      dsimp only at he
      split at he
      · cases he
      · obtain rfl := Except.ok.inj he
        exact exact_empty hp hres
    | some id =>
      rw [hres] at he
      obtain rfl := Except.ok.inj he
      have hsome : (t.resolve (scopeOf t p)).isSome :=
        Tree.isSome_resolve_of_contains (by rw [hres]; rfl) (scopeOf_contains ht p)
      obtain ⟨scopeId, hscope⟩ := Option.isSome_iff_exists.1 hsome
      rw [hscope, Option.getD_some]
      exact exact_electWithin ht hids hp (by rw [hres]; rfl) (ht.resolve_eq_some_iff.1 hscope)

/-- **Elections are sound, exact and all or nothing for a cluster**, in every tree that operations
build and for all known nodes with distinct ids. -/
theorem exact_of_elect (ops : List Tree.Op) (request : Request) (known : List Node)
    (hids : (known.map (·.id)).Nodup) {e : Election}
    (he : elect request (Tree.new.performAll ops) known = .ok e) :
    Exact (Tree.new.performAll ops) request known e :=
  exact_of_sound (Tree.sound_performAll ops) hids he

/-- A hall beside a rack that is a cluster with a cluster in it; the hall and the inner cluster are
deployment targets. -/
def rackAndHall : List Tree.Op :=
  [.create "eu.rack.shelf", .create "eu.hall",
    .configure 2 fun s => { s with cluster := true },
    .configure 3 fun s => { s with cluster := true, deploymentTarget := true },
    .configure 4 fun s => { s with deploymentTarget := true }]

/-- A node with a region label. -/
def nodeIn (id region : String) : Node := { id, labels := .ofList [(Node.regionLabel, region)] }

/-- The whole rack is elected for the node on the shelf, and the hall; neither a node beside them nor
one with a label that is no path is. -/
theorem exact_of_elect_rackAndHall :
    let tree := Tree.new.performAll rackAndHall
    let request : Request := { container := { image := "web" }, region := "eu", scale := 2 }
    let known := [nodeIn "e" "eu.hall", nodeIn "d" "eu.rack", nodeIn "c" "eu.rack.shelf",
      nodeIn "b" "eu", nodeIn "a" "eu..hall"]
    ∃ e, elect request tree known = .ok e ∧ e.nodes.map (·.id) = ["c", "d", "e"] ∧
      e.clusters.map Path.toString = ["eu.rack"] ∧ Exact tree request known e := by
  intro tree request known
  have hids : (known.map (·.id)).Nodup := by decide +kernel
  have hval : (elect request tree known).toOption.map (fun e =>
      (e.nodes.map (·.id), e.clusters.map Path.toString)) =
        some (["c", "d", "e"], ["eu.rack"]) := by decide +kernel
  cases he : elect request tree known with
  | error err => simp [he, Except.toOption] at hval
  | ok e =>
    rw [he] at hval
    obtain ⟨hnodes, hclusters⟩ := Prod.mk.inj (Option.some.inj hval)
    exact ⟨e, rfl, hnodes, hclusters, exact_of_elect rackAndHall request known hids he⟩

end FleetControl.Placement
