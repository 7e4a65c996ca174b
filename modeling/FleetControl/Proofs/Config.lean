import FleetControl.Config
import FleetControl.Proofs.Region.Declarations
import FleetControl.Proofs.Registry

/-!
# Configurations are loaded as they are written

A configuration passes its check exactly if it is `Config.Valid` (`Config.validate_eq_ok_iff`); in
particular region paths and node ids are not repeated and no node id is blank.

Of a valid configuration nothing is lost. The registry lists every bound node once
(`Config.Valid.registers`). The check compares the paths as texts, while the tree merges regions by
their segments; since different texts are different paths, the tree has every declared region with
the settings of its own declaration, whether the region was created by that declaration or was on
the way to another (`Config.Valid.lays`).
-/

namespace FleetControl

namespace Registry

theorem foldl_upsert (r : Registry) (nodes : List Node) :
    nodes.foldl upsert r = ⟨r.nodes.overlay (nodes.map fun node => (node.id, node))⟩ := by
  induction nodes generalizing r with
  | nil => rfl
  | cons node rest ih => exact ih (r.upsert node)

theorem ofNodes_eq (nodes : List Node) :
    ofNodes nodes = ⟨.ofList (nodes.map fun node => (node.id, node))⟩ :=
  foldl_upsert {} nodes

/-- Nodes with distinct ids are all listed. -/
theorem list_ofNodes_perm {nodes : List Node} (h : (nodes.map (·.id)).Nodup) :
    (ofNodes nodes).list.Perm nodes := by
  have hkeys : ((nodes.map fun node => (node.id, node)).map (·.1)).Nodup := by
    rw [List.map_map]
    exact h
  have hvalues := (SortedMap.perm_ofList hkeys).map (·.2)
  rw [List.map_map] at hvalues
  rw [ofNodes_eq]
  exact hvalues.trans (List.Perm.of_eq nodes.map_id)

/-- Of nodes with one id the last is registered. -/
theorem lookup_ofNodes (nodes : List Node) (id : String) :
    (ofNodes nodes).lookup id = nodes.reverse.find? (·.id == id) := by
  induction nodes using List.reverseRecOn with
  | nil => rfl
  | append_singleton init last ih =>
    have hconcat : ofNodes (init ++ [last]) = (ofNodes init).upsert last := by
      simp [ofNodes]
    rw [hconcat, lookup, upsert, List.reverse_append, List.reverse_singleton, List.singleton_append,
      List.find?_cons]
    by_cases hid : last.id = id
    · rw [← hid, SortedMap.get?_insert_self, beq_self_eq_true]
    · rw [SortedMap.get?_insert_of_ne (Ne.symm hid), beq_false_of_ne hid]
      exact ih

/-- The listed nodes have ascending ids. -/
theorem Keyed.ascending {r : Registry} (h : r.Keyed) :
    r.list.Pairwise fun a b => compare a.id b.id = .lt := by
  have hid : ∀ e ∈ r.nodes.toList, e.2.id = e.1 := fun e he =>
    h e.1 e.2 (SortedMap.mem_toList.1 he)
  refine List.pairwise_map.2 (r.nodes.ascending.imp_of_mem fun {a b} ha hb hab => ?_)
  rw [hid a ha, hid b hb]
  exact hab

theorem Keyed.lookup_of_mem_list {r : Registry} (h : r.Keyed) {node : Node} (hn : node ∈ r.list) :
    r.lookup node.id = some node := by
  obtain ⟨id, hid⟩ := SortedMap.mem_values.1 hn
  rw [h id node hid]
  exact hid

end Registry

/-- A region that is set is the region label of the node, and the other labels are as they are. -/
theorem NodeBinding.get?_labels_node (b : NodeBinding) (key : String) :
    b.node.labels.get? key =
      if key = Node.regionLabel then b.region.or (b.labels.get? key) else b.labels.get? key := by
  unfold node
  cases b.region with
  | none => simp
  | some region =>
    split_ifs with hkey
    · rw [hkey]
      exact SortedMap.get?_insert_self ..
    · exact SortedMap.get?_insert_of_ne hkey

namespace Config

open Region (Path Tree)

variable {c : Config}

/-! ### The check -/

theorem checkRegions_eq_ok_iff {seen paths : List String} :
    checkRegions seen paths = .ok () ↔ paths.Nodup ∧ ∀ path ∈ paths, path ∉ seen := by
  induction paths generalizing seen with
  | nil => simp [checkRegions]
  | cons path rest ih =>
    unfold checkRegions
    split_ifs with hseen
    · simp [List.contains_iff_mem.1 hseen]
    · rw [List.contains_iff_mem] at hseen
      rw [ih, List.nodup_cons]
      simp only [List.mem_cons, not_or, forall_eq_or_imp, hseen, not_false_eq_true, true_and]
      constructor
      · rintro ⟨hnodup, hnew⟩
        exact ⟨⟨fun hmem => (hnew path hmem).1 rfl, hnodup⟩, fun p hp => (hnew p hp).2⟩
      · rintro ⟨⟨hnot, hnodup⟩, hnew⟩
        exact ⟨hnodup, fun p hp => ⟨fun heq => hnot (heq ▸ hp), hnew p hp⟩⟩

/-- Node ids are checked as region paths are, and must not be blank. -/
theorem checkNodes_eq_ok_iff {seen ids : List String} :
    checkNodes seen ids = .ok () ↔
      checkRegions seen ids = .ok () ∧ ∀ id ∈ ids, Text.isBlank id = false := by
  induction ids generalizing seen with
  | nil => simp [checkNodes, checkRegions]
  | cons id rest ih =>
    unfold checkNodes checkRegions
    split_ifs with hblank hseen <;> simp_all

/-- What a configuration without a defect is. -/
structure Valid (c : Config) : Prop where
  regions : (c.regions.map (·.path)).Nodup
  nodes : (c.nodes.map (·.id)).Nodup
  named : ∀ b ∈ c.nodes, Text.isBlank b.id = false
  timeout : c.engine.dispatchTimeoutMs ≠ 0
  concurrency : c.engine.maxConcurrentDispatches ≠ 0
  interval : c.reconcile.intervalSecs ≠ 0

theorem validate_eq_ok_iff : c.validate = .ok () ↔ c.Valid := by
  have hregions : checkRegions [] (c.regions.map (·.path)) = .ok () ↔
      (c.regions.map (·.path)).Nodup := by
    simp [checkRegions_eq_ok_iff]
  have hnodes : checkNodes [] (c.nodes.map (·.id)) = .ok () ↔
      (c.nodes.map (·.id)).Nodup ∧ ∀ b ∈ c.nodes, Text.isBlank b.id = false := by
    simp [checkNodes_eq_ok_iff, checkRegions_eq_ok_iff]
  have hvalid : c.Valid ↔ checkRegions [] (c.regions.map (·.path)) = .ok () ∧
      checkNodes [] (c.nodes.map (·.id)) = .ok () ∧ c.engine.dispatchTimeoutMs ≠ 0 ∧
      c.engine.maxConcurrentDispatches ≠ 0 ∧ c.reconcile.intervalSecs ≠ 0 := by
    rw [hregions, hnodes]
    constructor
    · rintro ⟨hregions, hnodes, hnamed, htimeout, hconcurrency, hinterval⟩
      exact ⟨hregions, ⟨hnodes, hnamed⟩, htimeout, hconcurrency, hinterval⟩
    · rintro ⟨hregions, ⟨hnodes, hnamed⟩, htimeout, hconcurrency, hinterval⟩
      exact ⟨hregions, hnodes, hnamed, htimeout, hconcurrency, hinterval⟩
  rw [hvalid]
  simp only [validate, bind, Except.bind, pure, Except.pure, throw, throwThe, MonadExceptOf.throw]
  cases checkRegions [] (c.regions.map (·.path)) with
  | error e => simp
  | ok u =>
    cases checkNodes [] (c.nodes.map (·.id)) with
    | error e => simp
    | ok u' => split_ifs <;> simp_all

/-! ### What is loaded -/

/-- The registry lists what the configuration binds. -/
structure Registers (c : Config) (r : Registry) : Prop where
  /-- There is one node for each binding. -/
  listed : (r.list.map (·.id)).Perm (c.nodes.map (·.id))
  ascending : r.list.Pairwise fun a b => compare a.id b.id = .lt
  /-- It has the health and the labels of its binding, and the region, if one is set, goes before a
  label. -/
  bound : ∀ b ∈ c.nodes, ∃ node ∈ r.list, node.id = b.id ∧ r.lookup b.id = some node ∧
    node.healthy = b.healthy ∧ ∀ key, node.labels.get? key =
      if key = Node.regionLabel then b.region.or (b.labels.get? key) else b.labels.get? key

/-- The tree has the regions that the configuration declares. -/
structure Lays (c : Config) (t : Tree) : Prop where
  /-- Ids and paths name the same regions. -/
  indexed : t.Indexed
  /-- The regions are the root and the prefixes of the declared paths. -/
  regions : ∀ q, (t.resolve q).isSome ↔
    q = Path.root ∨ ∃ d ∈ c.regions, ∃ p, Path.parse d.path = .ok p ∧ q.contains p = true
  /-- A declared region has exactly the settings of its declaration. -/
  declared : ∀ d ∈ c.regions, ∀ p, Path.parse d.path = .ok p →
    ∃ id, t.resolve p = some id ∧ t.settings? id = some d.settings
  /-- Every other region has default settings. -/
  others : ∀ id q, t.path? id = some q → (∀ d ∈ c.regions, Path.parse d.path ≠ .ok q) →
    t.settings? id = some {}

theorem Valid.registers (h : c.Valid) : c.Registers (.ofNodes c.boundNodes) := by
  have hids : c.boundNodes.map (·.id) = c.nodes.map (·.id) := List.map_map
  have hperm : (Registry.ofNodes c.boundNodes).list.Perm c.boundNodes :=
    Registry.list_ofNodes_perm (hids ▸ h.nodes)
  have hkeyed := Registry.keyed_ofNodes c.boundNodes
  refine ⟨hids ▸ hperm.map _, hkeyed.ascending, fun b hb => ?_⟩
  have hmem : b.node ∈ (Registry.ofNodes c.boundNodes).list :=
    hperm.mem_iff.2 (List.mem_map_of_mem hb)
  exact ⟨b.node, hmem, rfl, hkeyed.lookup_of_mem_list hmem, rfl, b.get?_labels_node⟩

theorem Valid.lays (h : c.Valid) (hpaths : ∀ d ∈ c.regions, ∃ p, Path.parse d.path = .ok p) :
    ∃ t, c.regionTree = .ok t ∧ c.Lays t := by
  obtain ⟨t, ht, hdeclared⟩ := Tree.exists_ofDeclarations hpaths
  have hregions : ∀ q, (t.resolve q).isSome ↔ q = Path.root ∨
      ∃ d ∈ c.regions, ∃ p, Path.parse d.path = .ok p ∧ q.contains p = true := fun q => by
    rw [hdeclared.exact, Tree.isSome_resolve_new]
  refine ⟨t, ht, hdeclared.sound.indexed, hregions, fun d hd p hp => ?_, fun id q hq hnone => ?_⟩
  · obtain ⟨id, hid⟩ := Option.isSome_iff_exists.1
      ((hregions p).2 (.inr ⟨d, hd, p, hp, Path.contains_refl p⟩))
    refine ⟨id, hid, ?_⟩
    rw [hdeclared.sound.settings?_eq (hdeclared.sound.resolve_eq_some_iff.1 hid),
      hdeclared.settingsOf_declared h.regions hd hp]
  · rw [hdeclared.sound.settings?_eq hq, hdeclared.settingsOf_undeclared hnone]

/-- **Configurations are loaded as they are written.** From a configuration that passes the check,
and whose region paths are paths, the registry and the region tree are exactly what it says; one that
repeats a region path or a node id, or has a blank node id, does not pass. -/
theorem loaded_as_written (c : Config) :
    (c.validate = .ok () → c.Registers (.ofNodes c.boundNodes) ∧
      ((∀ d ∈ c.regions, ∃ p, Path.parse d.path = .ok p) →
        ∃ t, c.regionTree = .ok t ∧ c.Lays t)) ∧
    ((¬ (c.regions.map (·.path)).Nodup ∨ ¬ (c.nodes.map (·.id)).Nodup ∨
        ∃ b ∈ c.nodes, Text.isBlank b.id = true) →
      ∃ defect, c.validate = .error defect) := by
  refine ⟨fun hvalid => ?_, fun hdefect => ?_⟩
  · have h := validate_eq_ok_iff.1 hvalid
    exact ⟨h.registers, h.lays⟩
  · cases hvalid : c.validate with
    | error defect => exact ⟨defect, rfl⟩
    | ok u =>
      have h := validate_eq_ok_iff.1 hvalid
      rcases hdefect with hregions | hnodes | ⟨b, hb, hblank⟩
      · exact absurd h.regions hregions
      · exact absurd h.nodes hnodes
      · rw [h.named b hb] at hblank
        cases hblank

/-- A region below one that is declared after it, and a node whose region goes before a label. -/
def harbour : Config where
  regions :=
    [{ path := "eu.west", settings := { cluster := true } },
     { path := "eu", settings := { properties := .ofList [("tier", "gold")] } }]
  nodes :=
    [{ id := "b", region := some "eu.west", labels := .ofList [("region", "us")] }, { id := "a" }]

theorem loaded_as_written_harbour :
    harbour.validate = .ok () ∧ harbour.Registers (.ofNodes harbour.boundNodes) ∧
    (∃ t, harbour.regionTree = .ok t ∧ harbour.Lays t) ∧
    ∃ defect, ({ harbour with nodes := harbour.nodes ++ harbour.nodes } : Config).validate =
      .error defect := by
  have hvalid : harbour.validate = .ok () := validate_eq_ok_iff.2
    ⟨by decide, by decide, by decide, by decide, by decide, by decide⟩
  have hpaths : ∀ d ∈ harbour.regions, ∃ p, Path.parse d.path = .ok p := by
    have hread : ∀ d ∈ harbour.regions, d.declares ⟨["eu", "west"], by decide⟩ = true ∨
        d.declares ⟨["eu"], by decide⟩ = true := by decide +kernel
    exact fun d hd => (hread d hd).elim (fun h => ⟨_, Region.Declaration.declares_iff.1 h⟩)
      fun h => ⟨_, Region.Declaration.declares_iff.1 h⟩
  obtain ⟨hregistry, htree⟩ := (loaded_as_written harbour).1 hvalid
  exact ⟨hvalid, hregistry, htree hpaths,
    (loaded_as_written { harbour with nodes := harbour.nodes ++ harbour.nodes }).2
      (.inr (.inl (by decide)))⟩

end Config

end FleetControl
