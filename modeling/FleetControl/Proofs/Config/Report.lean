import FleetControl.Config.Report
import FleetControl.Proofs.Config
import FleetControl.Proofs.Control.Orphans
import FleetControl.Proofs.Control.Placeable

/-!
# The report agrees with the control plane

There is a report on a configuration exactly if all its paths can be read, those of the regions and
the region labels of the nodes (`Config.Readable`). It warns of the nodes whose region is neither the
root nor on the way to a declared region (`Config.covers`), each in its turn (`Config.report_eq`).

The report looks the label of a node up in the tree, while an election reads it and compares paths.
That both see the same is `Config.Agrees`: with a report the control plane can be set up, and in every
run of it a node with a label from the configuration stands where its label says. Where no region is
flagged, an election is by prefix alone (`Placement.elect_unflagged`), so a node that the report warns
of is elected like any other.
-/

namespace FleetControl

open Region (Path Tree)

/-! ### Trees without flags -/

namespace Placement

variable {t : Tree} {request : Request} {known : List Node} {p : Path}

/-- **In a tree without flags** just those nodes are elected that are healthy, carry the labels and
lie in the requested region. -/
theorem elect_unflagged (ht : t.Sound) (hids : (known.map (·.id)).Nodup)
    (hclusters : ∀ id, t.isCluster id = false) (htargets : ∀ id, t.isDeploymentTarget id = false)
    (hp : Path.parse request.region = .ok p) (hres : (t.resolve p).isSome) :
    ∃ e, elect request t known = .ok e ∧ ∀ node, node ∈ e.nodes ↔ node ∈ known ∧
      node.healthy = true ∧ node.carries request.requiredLabels = true ∧
        p.contains (nodePath node) = true := by
  have hcluster : ∀ c, ¬ IsCluster t c := fun c ⟨id, _, hflag⟩ =>
    Bool.false_ne_true ((hclusters id).symm.trans hflag)
  have htarget : ∀ q, ¬ IsTarget t q := fun q ⟨id, _, hflag⟩ =>
    Bool.false_ne_true ((htargets id).symm.trans hflag)
  obtain ⟨id, hid⟩ := Option.isSome_iff_exists.1 hres
  obtain ⟨e, he⟩ : ∃ e, elect request t known = .ok e := by
    rw [elect_of_parse ht hp, hid]
    exact ⟨_, rfl⟩
  have hexact := exact_of_sound ht hids he
  have hscope : e.scope = some p := by
    rcases hexact.scope p hp hres with ⟨c, hc, -⟩ | ⟨-, hscope⟩
    · exact absurd hc.cluster (hcluster c)
    · exact hscope
  -- the requested region is the only target
  have htargets' : ∀ q, q ∈ e.targetRegions ↔ q = p := fun q => by
    rw [hexact.targets p hscope q]
    simp [htarget]
  refine ⟨e, he, fun node => ?_⟩
  have hin (hknown : node ∈ known) := hexact.independent node hknown fun c hc =>
    absurd hc (hcluster c)
  simp only [htargets', exists_eq_left] at hin
  exact ⟨fun hnode => ⟨(hexact.eligible node hnode).1, (hin (hexact.eligible node hnode).1).1 hnode⟩,
    fun ⟨hknown, hnode⟩ => (hin hknown).2 hnode⟩

theorem nodePath_of_parse {node : Node} (h : Path.parse node.region = .ok p) : nodePath node = p := by
  rw [nodePath, h]
  rfl

theorem parse_nodePath {node : Node} (h : ∃ p, Path.parse node.region = .ok p) :
    Path.parse node.region = .ok (nodePath node) := by
  obtain ⟨p, hp⟩ := h
  rw [nodePath_of_parse hp, hp]

end Placement

open Placement (elect nodePath parse_nodePath)

namespace Config

variable {c : Config} {t : Tree}

/-! ### When there is a report -/

/-- All paths of the configuration can be read. -/
structure Readable (c : Config) : Prop where
  regions : ∀ d ∈ c.regions, ∃ p, Path.parse d.path = .ok p
  nodes : ∀ node ∈ c.boundNodes, ∃ p, Path.parse node.region = .ok p

/-- The path is the root or on the way to a declared region. -/
def covers (c : Config) (p : Path) : Bool :=
  p == Path.root || c.regions.any fun d => (Path.parse d.path).toOption.any p.contains

theorem covers_iff {p : Path} : c.covers p = true ↔
    p = Path.root ∨ ∃ d ∈ c.regions, ∃ q, Path.parse d.path = .ok q ∧ p.contains q = true := by
  rw [covers, Bool.or_eq_true, beq_iff_eq, List.any_eq_true]
  refine or_congr_right (exists_congr fun d => and_congr_right fun _ => ?_)
  cases Path.parse d.path <;> simp [Except.toOption]

theorem undeclared_eq {nodes : List Node} (h : ∀ node ∈ nodes, ∃ p, Path.parse node.region = .ok p) :
    undeclared t nodes = .ok (nodes.filter fun node => (t.resolve (nodePath node)).isNone) := by
  induction nodes with
  | nil => rfl
  | cons node rest ih =>
    obtain ⟨hnode, hrest⟩ := List.forall_mem_cons.1 h
    have hresolve : t.resolveText node.region = .ok (t.resolve (nodePath node)) := by
      simp only [Tree.resolveText, parse_nodePath hnode, bind, Except.bind, pure, Except.pure]
    unfold undeclared
    rw [hresolve, List.filter_cons, ih hrest]
    cases t.resolve (nodePath node) <;> rfl

theorem parse_of_undeclared {nodes strays : List Node} (h : undeclared t nodes = .ok strays) :
    ∀ node ∈ nodes, ∃ p, Path.parse node.region = .ok p := by
  induction nodes generalizing strays with
  | nil => exact fun node hnode => absurd hnode List.not_mem_nil
  | cons node rest ih =>
    unfold undeclared at h
    cases hp : Path.parse node.region with
    | error e =>
      simp [Tree.resolveText, hp, bind, Except.bind] at h
    | ok p =>
      refine List.forall_mem_cons.2 ⟨⟨p, hp⟩, ?_⟩
      simp only [Tree.resolveText, hp, bind, Except.bind, pure, Except.pure] at h
      cases hrest : undeclared t rest with
      | error e =>
        rw [hrest] at h
        cases hres : t.resolve p <;> simp [hres] at h
      | ok strays' => exact ih hrest

/-- The declared regions are those that the tree has. -/
theorem Readable.exists_regionTree (h : c.Readable) :
    ∃ t, c.regionTree = .ok t ∧ t.Sound ∧ ∀ q, (t.resolve q).isSome ↔ c.covers q = true := by
  obtain ⟨t, ht, hdeclared⟩ := Tree.exists_ofDeclarations h.regions
  refine ⟨t, ht, hdeclared.sound, fun q => ?_⟩
  rw [hdeclared.exact, Tree.isSome_resolve_new, covers_iff]

/-- The lines that warn: one for each node in a region that is not declared, in order. -/
def warnings (c : Config) : List String :=
  (c.boundNodes.filter fun node => !c.covers (nodePath node)).map warning

/-- **The report** on a configuration with readable paths. -/
theorem Readable.report_eq (h : c.Readable) (ht : c.regionTree = .ok t)
    (hcovers : ∀ q, (t.resolve q).isSome ↔ c.covers q = true) :
    c.report = .ok (t.outline ++ c.summary t ++ String.join c.warnings) := by
  have hstray : ∀ node : Node, (t.resolve (nodePath node)).isNone = !c.covers (nodePath node) :=
    fun node => by rw [← Option.not_isSome, Bool.eq_iff_iff.2 (hcovers _)]
  simp only [report, ht, Except.mapError, undeclared_eq h.nodes, bind, Except.bind, pure,
    Except.pure, warnings, hstray]

theorem readable_of_report {text : String} (h : c.report = .ok text) : c.Readable := by
  unfold report at h
  cases ht : c.regionTree with
  | error e => simp [ht, Except.mapError, bind, Except.bind] at h
  | ok t =>
    refine ⟨Tree.parse_of_ofDeclarations ht, ?_⟩
    cases hstrays : undeclared t c.boundNodes with
    | error e => simp [ht, Except.mapError, hstrays, bind, Except.bind] at h
    | ok strays => exact parse_of_undeclared hstrays

end Config

/-! ### What a run leaves of the configuration -/

namespace Control

/-- The step binds no node to a region: it registers none and sets no region label. -/
def Label.leavesBindings : Label → Bool
  | .change (.register _) => false
  | .change (.setLabel _ key _) => key != Node.regionLabel
  | _ => true

/-- Every known node is bound to its region by the configuration. -/
def Bound (c : Config) (r : Registry) : Prop := ∀ id node, r.lookup id = some node →
  ∃ b ∈ c.boundNodes, b.id = node.id ∧ b.region = node.region

section

variable {c : Config} {s₀ s s' : State} {l : Label} {labels : List Label}

theorem bound_ofNodes (c : Config) : Bound c (.ofNodes c.boundNodes) := by
  intro id node hnode
  rw [Registry.ofNodes_eq, Registry.lookup] at hnode
  obtain ⟨b, hb, heq⟩ := List.mem_map.1 (SortedMap.mem_of_get?_ofList hnode)
  obtain ⟨-, rfl⟩ := Prod.mk.inj heq
  exact ⟨b, hb, rfl, rfl⟩

/-- A change of a node that leaves its id and its region label keeps it bound. -/
theorem Bound.modify {r : Registry} {id : String} {f : Node → Node} (h : Bound c r)
    (hid : ∀ node, (f node).id = node.id) (hregion : ∀ node, (f node).region = node.region) :
    Bound c ⟨r.nodes.modify id f⟩ := by
  intro q node hnode
  obtain ⟨n₀, hn₀, rfl | rfl⟩ := Registry.lookup_modify hnode
  · exact h q _ hn₀
  · rw [hid, hregion]
    exact h q _ hn₀

theorem bound_step (h : Bound c s.registry) (hl : l.leavesBindings = true)
    (hstep : step s l = some s') : Bound c s'.registry := by
  rcases registry_step hstep with heq | ⟨change, rfl, rfl⟩
  · rwa [heq]
  cases change with
  | register node => cases hl
  | deregister id =>
    intro q node hnode
    rw [Change.apply, Registry.remove, Registry.lookup, SortedMap.get?_erase] at hnode
    split at hnode
    · cases hnode
    · exact h q node hnode
  | setHealthy id healthy => exact h.modify (fun _ => rfl) fun _ => rfl
  | setLabel id key value =>
    have hkey : Node.regionLabel ≠ key := fun heq => by simp [Label.leavesBindings, heq] at hl
    refine h.modify (fun _ => rfl) fun node => ?_
    rw [Node.region, Node.region, SortedMap.get?_insert_of_ne hkey]
  | _ => exact h

theorem bound_run (h : Bound c s₀.registry) (hlabels : ∀ l ∈ labels, l.leavesBindings = true)
    (hrun : run s₀ labels = some s) : Bound c s.registry := by
  refine run_induction (P := fun labels s => (∀ l ∈ labels, l.leavesBindings = true) →
    Bound c s.registry) (fun _ => h) (fun labels s l s' _ hs hstep hlabels => ?_) hrun hlabels
  rw [List.forall_mem_append, List.forall_mem_singleton] at hlabels
  exact bound_step (hs hlabels.1) hlabels.2 hstep

theorem keyed_run (h : s₀.registry.Keyed) (hrun : run s₀ labels = some s) : s.registry.Keyed := by
  refine run_induction (P := fun _ s => s.registry.Keyed) h (fun _ s l s' _ hs hstep => ?_) hrun
  rcases registry_step hstep with heq | ⟨change, -, rfl⟩
  · rwa [heq]
  · exact keyed_apply change hs

/-- Regions are only added, in a run as in a step. -/
theorem successor_run (ht : s₀.tree.Sound) (hrun : run s₀ labels = some s) :
    s₀.tree.Successor s.tree :=
  run_induction (P := fun _ s => s₀.tree.Successor s.tree) ht.successor_refl
    (fun _ _ _ _ _ hs hstep => hs.trans (successor_step hs.sound hstep)) hrun

end

end Control

/-! ### Agreement -/

open Control (State Label)

namespace Config

variable {c : Config} {t : Tree}

/-- What the configuration is good for in a state of a run. -/
structure Serves (c : Config) (s : State) : Prop where
  /-- The declared regions are there. -/
  regions : ∀ p, c.covers p = true → (s.tree.resolve p).isSome
  /-- A node with a region label from the configuration stands where its label says; it is not put
  at the root for a label that cannot be read. -/
  placed : ∀ node ∈ s.registry.list, (∃ b ∈ c.boundNodes, b.region = node.region) →
    Path.parse node.region = .ok (nodePath node)
  /-- Where no region is flagged, a request for a region elects just the nodes in it that are
  healthy and carry the labels. -/
  elected : (∀ id, s.tree.isCluster id = false) → (∀ id, s.tree.isDeploymentTarget id = false) →
    ∀ request p, Path.parse request.region = .ok p → (s.tree.resolve p).isSome →
    ∃ e, elect request s.tree s.registry.list = .ok e ∧ ∀ node, node ∈ e.nodes ↔
      node ∈ s.registry.list ∧ node.healthy = true ∧
        node.carries request.requiredLabels = true ∧ p.contains (nodePath node) = true

/-- The control plane that a configuration sets up is as the report on it says. -/
structure Agrees (c : Config) (text : String) : Prop where
  /-- The report shows the regions, which are the root and those on the way to a declared one, and
  warns of every node that is bound to another. -/
  shown : ∃ t, c.regionTree = .ok t ∧ (∀ p, (t.resolve p).isSome ↔ c.covers p = true) ∧
    text = t.outline ++ c.summary t ++ String.join c.warnings
  /-- The control plane can be set up, with these regions and the nodes that are bound. -/
  started : ∀ entropy wall, ∃ s, State.ofConfig c entropy wall = .ok s ∧
    c.regionTree = .ok s.tree ∧ s.registry = .ofNodes c.boundNodes
  /-- Of the nodes bound under one id the last is known, so all are if their ids are distinct. -/
  known : (∀ id, (Registry.ofNodes c.boundNodes).lookup id =
      c.boundNodes.reverse.find? (·.id == id)) ∧
    ((c.nodes.map (·.id)).Nodup → (Registry.ofNodes c.boundNodes).list.Perm c.boundNodes)
  /-- Every run keeps what the configuration is good for. -/
  serves : ∀ entropy wall s₀ labels s, State.ofConfig c entropy wall = .ok s₀ →
    Control.run s₀ labels = some s → c.Serves s
  /-- As long as nobody binds nodes anew, all known nodes have their region from the
  configuration. -/
  bound : ∀ entropy wall s₀ labels s, State.ofConfig c entropy wall = .ok s₀ →
    Control.run s₀ labels = some s → (∀ l ∈ labels, l.leavesBindings = true) →
    ∀ node ∈ s.registry.list, ∃ b ∈ c.boundNodes, b.id = node.id ∧ b.region = node.region

theorem Readable.serves (h : c.Readable) {entropy : UInt64} {wall : Nat} {s₀ s : State}
    {labels : List Label} (hinit : State.ofConfig c entropy wall = .ok s₀)
    (hrun : Control.run s₀ labels = some s) : c.Serves s := by
  obtain ⟨t, ht, hsound, hcovers⟩ := h.exists_regionTree
  obtain ⟨t', ht', rfl⟩ := Control.ofConfig_eq_ok.1 hinit
  obtain rfl : t = t' := Except.ok.inj (ht.symm.trans ht')
  have hnext := Control.successor_run hsound hrun
  have hkeyed := Control.keyed_run (Registry.keyed_ofNodes c.boundNodes) hrun
  have hids : (s.registry.list.map (·.id)).Nodup :=
    List.pairwise_map.2 (hkeyed.ascending.imp SortedMap.ne_of_compare_lt)
  refine ⟨fun p hp => ?_, fun node _ ⟨b, hb, hregion⟩ => ?_, fun hclusters htargets request p =>
    Placement.elect_unflagged hnext.sound hids hclusters htargets⟩
  · obtain ⟨id, hid⟩ := Option.isSome_iff_exists.1 ((hcovers p).2 hp)
    rw [hnext.grows.resolve hid]
    rfl
  · exact parse_nodePath (hregion ▸ h.nodes b hb)

theorem bound_of_run {entropy : UInt64} {wall : Nat} {s₀ s : State} {labels : List Label}
    (hinit : State.ofConfig c entropy wall = .ok s₀) (hrun : Control.run s₀ labels = some s)
    (hlabels : ∀ l ∈ labels, l.leavesBindings = true) {node : Node}
    (hnode : node ∈ s.registry.list) :
    ∃ b ∈ c.boundNodes, b.id = node.id ∧ b.region = node.region := by
  obtain ⟨t, -, rfl⟩ := Control.ofConfig_eq_ok.1 hinit
  obtain ⟨id, hid⟩ := SortedMap.mem_values.1 hnode
  exact Control.bound_run (Control.bound_ofNodes c) hlabels hrun id node hid

theorem Readable.agrees (h : c.Readable) : ∃ text, c.report = .ok text ∧ c.Agrees text := by
  obtain ⟨t, ht, -, hcovers⟩ := h.exists_regionTree
  refine ⟨_, h.report_eq ht hcovers, ?_⟩
  constructor
  case shown => exact ⟨t, ht, hcovers, rfl⟩
  case started =>
    exact fun entropy wall => ⟨_, Control.ofConfig_eq_ok.2 ⟨t, ht, rfl⟩, ht, rfl⟩
  case known =>
    refine ⟨Registry.lookup_ofNodes _, fun hids => Registry.list_ofNodes_perm ?_⟩
    rwa [boundNodes, List.map_map]
  case serves => exact fun entropy wall s₀ labels s => h.serves
  case bound =>
    exact fun entropy wall s₀ labels s hinit hrun hlabels node => bound_of_run hinit hrun hlabels

/-- **The report agrees with the control plane.** There is a report on a configuration exactly if
all its paths can be read, and then the control plane is as the report says. -/
theorem report_agrees (c : Config) : ((∃ text, c.report = .ok text) ↔ c.Readable) ∧
    ∀ text, c.report = .ok text → c.Agrees text := by
  refine ⟨⟨fun ⟨text, h⟩ => readable_of_report h, fun h => ?_⟩, fun text h => ?_⟩
  · obtain ⟨text, htext, -⟩ := h.agrees
    exact ⟨text, htext⟩
  · obtain ⟨text', htext', hagrees⟩ := (readable_of_report h).agrees
    obtain rfl : text = text' := Except.ok.inj (h.symm.trans htext')
    exact hagrees

/-- One node is in the declared region and another in a region that is not declared. -/
def outpost : Config where
  regions := [{ path := "eu.west" }]
  nodes := [{ id := "w", region := some "eu.west" }, { id := "x", region := some "us.east" }]

/-- The report warns of the node in the region that is not declared; a request for the root elects it
none the less. -/
theorem report_agrees_outpost : ∃ text, outpost.report = .ok text ∧ outpost.Agrees text ∧
    outpost.warnings = ["warning: node `x` is bound to undeclared region `us.east`\n"] ∧
    (State.ofConfig outpost 0 0).toOption.any (fun s =>
      (elect { container := { image := "web" }, scale := 1 } s.tree s.registry.list).toOption.any
        fun e => e.nodes.map (·.id) == ["w", "x"]) = true := by
  have hreport : outpost.report.toOption.isSome = true := by decide +kernel
  cases h : outpost.report with
  | error e => simp [h, Except.toOption] at hreport
  | ok text =>
    exact ⟨text, rfl, (report_agrees outpost).2 text h, by decide +kernel, by decide +kernel⟩

end Config

end FleetControl
