import FleetControl.Config.Toml
import FleetControl.Proofs.Toml.Lines
import FleetControl.Proofs.Toml.Range
import Mathlib.Algebra.Group.Nat.Defs

/-!
# Configurations survive being written

A configuration is written as sections: a table under a doubled header for each region and each
node, and a table for each group of settings. Its text is read back line by line as the statements
of these sections (`Config.makes_lines`), the statements make the table of the configuration
(`Config.ofStatements_sections`), and the table is read field by field as the configuration
(`Config.decode_table`).

Only integers can be in the way, since a document has no integer of 64 bits without a sign. What a
document gives has integers of 63 bits (`Config.integers_lt`), so a configuration that was read can
always be written, and comes back as it is (`Config.toml_round_trip`).
-/

namespace FleetControl

open Data Toml

namespace Config

/-- The integers of a configuration. -/
def integers (c : Config) : List Nat :=
  c.placement.seed.toList.map UInt64.toNat ++
  c.placement.maxInstancesPerNode.toList.map UInt32.toNat ++
  [c.engine.dispatchTimeoutMs.toNat, c.engine.maxConcurrentDispatches.toNat,
    c.engine.errorLogCapacity.toNat, c.reconcile.intervalSecs.toNat]

theorem inRange_iff {n : Nat} : Number.inRange n ↔ n < 2 ^ 63 := by
  have hmin : Int64.minValue.toInt = -2 ^ 63 := rfl
  have hmax : Int64.maxValue.toInt = 2 ^ 63 - 1 := rfl
  rw [Number.inRange, hmin, hmax, Bool.and_eq_true, decide_eq_true_iff, decide_eq_true_iff]
  omega

/-! ### Lines -/

/-- The items of a map of texts. -/
def mapFields (m : SortedMap String String) : Table := m.toList.map fun e => (e.1, .text e.2)

/-- A declared region as a table under a doubled header. -/
def regionElement (d : Region.Declaration) : Element where
  fields := [("path", .text d.path), ("inherit_properties", .bool d.settings.inheritProperties),
    ("deployment_target", .bool d.settings.deploymentTarget), ("cluster", .bool d.settings.cluster)]
  inner := "properties"
  innerFields := mapFields d.settings.properties

/-- A bound node as a table under a doubled header. -/
def nodeElement (b : NodeBinding) : Element where
  fields := [("id", .text b.id)] ++ (b.region.map fun region => ("region", .text region)).toList ++
    [("healthy", .bool b.healthy)]
  inner := "labels"
  innerFields := mapFields b.labels

/-- The items of placement settings. -/
def placementFields (s : PlacementSettings) : Table :=
  [("policy", .text s.policy.word), ("victims", .text s.victims.name)] ++
  (s.seed.map fun n => ("seed", .integer n.toNat)).toList ++
  (s.maxInstancesPerNode.map fun n => ("max_instances_per_node", .integer n.toNat)).toList

/-- The items of engine settings. -/
def engineFields (s : EngineSettings) : Table :=
  [("dispatch_timeout_ms", .integer s.dispatchTimeoutMs.toNat),
    ("max_concurrent_dispatches", .integer s.maxConcurrentDispatches.toNat),
    ("error_log_capacity", .integer s.errorLogCapacity.toNat)]

/-- The items of reconcile settings. -/
def reconcileFields (s : ReconcileSettings) : Table :=
  [("interval_secs", .integer s.intervalSecs.toNat)]

/-- The item of a list without elements. -/
def emptyEntry {α : Type} (key : String) (xs : List α) : Table :=
  if xs.isEmpty then [(key, .array [])] else []

/-- The items of the lists without elements. -/
def emptyEntries (c : Config) : Table :=
  emptyEntry "regions" c.regions ++ emptyEntry "nodes" c.nodes

/-- The sections of a configuration. -/
def sections (c : Config) : List Statement :=
  (c.regions.map regionElement).flatMap (·.sections "regions") ++
  (c.nodes.map nodeElement).flatMap (·.sections "nodes") ++
  tableSection "placement" (placementFields c.placement) ++
  tableSection "engine" (engineFields c.engine) ++
  tableSection "reconcile" (reconcileFields c.reconcile)

/-- Lines that can be read, and the statements that they make. -/
def Makes (ls : List Line) (ss : List Statement) : Prop :=
  (∀ line ∈ ls, line.Readable) ∧ ls.map Line.statement = ss

theorem Makes.append {ls ls' : List Line} {ss ss' : List Statement} (h : Makes ls ss)
    (h' : Makes ls' ss') : Makes (ls ++ ls') (ss ++ ss') := by
  refine ⟨fun line hline => ?_, by rw [List.map_append, h.2, h'.2]⟩
  rcases List.mem_append.1 hline with hline | hline
  · exact h.1 line hline
  · exact h'.1 line hline

theorem Makes.flatMap {α : Type} {f : α → List Line} {g : α → List Statement}
    (h : ∀ x, Makes (f x) (g x)) (xs : List α) : Makes (xs.flatMap f) (xs.flatMap g) := by
  induction xs with
  | nil => exact ⟨fun _ h => absurd h List.not_mem_nil, rfl⟩
  | cons x xs ih => exact (h x).append ih

theorem makes_mapLines {path : List String} (hpath : path.length < Reader.maxDots) (key : String)
    (m : SortedMap String String) :
    Makes (mapLines path key m) (.header path key :: assigns (mapFields m)) := by
  constructor
  · refine List.forall_mem_cons.2 ⟨hpath, List.forall_mem_map.2 fun e _ n hn => ?_⟩
    cases hn
  · rw [mapLines, List.map_cons, List.map_map, assigns, mapFields, List.map_map]
    rfl

theorem makes_regionLines (d : Region.Declaration) :
    Makes (regionLines d) ((regionElement d).sections "regions") := by
  rw [Element.sections, ← List.cons_append]
  refine Makes.append ⟨?_, rfl⟩ (makes_mapLines (by decide) ..)
  simp [Line.Readable, Reader.maxDots]

theorem makes_nodeLines (b : NodeBinding) :
    Makes (nodeLines b) ((nodeElement b).sections "nodes") := by
  rw [Element.sections, ← List.cons_append]
  refine Makes.append ?_ (makes_mapLines (by decide) ..)
  cases hregion : b.region <;>
    simp [Makes, Line.Readable, Reader.maxDots, hregion, nodeElement, assigns, Line.statement,
      Simple.item]

theorem makes_emptyLine {α : Type} (key : String) (xs : List α) :
    Makes (emptyLine key xs) (assigns (emptyEntry key xs)) := by
  cases xs with
  | nil =>
    refine ⟨fun line hline => ?_, rfl⟩
    rw [List.mem_singleton.1 hline]
    rintro n ⟨⟩
  | cons x xs => exact ⟨fun _ h => absurd h List.not_mem_nil, rfl⟩

theorem numberLine_eq {n : UInt64} (h : n.toNat < 2 ^ 63) (key : String) :
    numberLine key n = some (.field key (.integer n.toNat)) :=
  if_pos (inRange_iff.2 h)

theorem readable_number {n : Nat} (h : n < 2 ^ 63) (key : String) :
    (Line.field key (.integer n)).Readable := by
  rintro _ ⟨⟩
  exact inRange_iff.2 h

theorem readable_header (key : String) : (Line.header [] key).Readable := by
  change 0 < Reader.maxDots
  decide

theorem makes_number (key : String) {α : Type} (value : α → Nat) {number : Option α}
    (h : ∀ n, number = some n → value n < 2 ^ 63) :
    Makes (number.map fun n => Line.field key (.integer (value n))).toList
      (assigns (number.map fun n => (key, Item.integer (value n))).toList) := by
  cases hnumber : number with
  | none => exact ⟨fun _ h => absurd h List.not_mem_nil, rfl⟩
  | some n =>
    refine ⟨fun line hline => ?_, rfl⟩
    rw [List.mem_singleton.1 hline]
    exact readable_number (h n hnumber) key

theorem makes_placementLines {s : PlacementSettings}
    (hseed : ∀ n, s.seed = some n → n.toNat < 2 ^ 63) :
    ∃ ls, placementLines s = some ls ∧
      Makes ls (tableSection "placement" (placementFields s)) := by
  have hseedLine : s.seed.mapM (numberLine "seed") =
      some (s.seed.map fun n => .field "seed" (.integer n.toNat)) := by
    cases hs : s.seed with
    | none => rfl
    | some n => rw [Option.mapM_some, numberLine_eq (hseed n hs)]; rfl
  have htext : ∀ key text, (Line.field key (.text text)).Readable := by rintro key text n ⟨⟩
  have hnames : Makes [.header [] "placement", .field "policy" (.text s.policy.word),
      .field "victims" (.text s.victims.name)]
      (tableSection "placement" [("policy", .text s.policy.word),
        ("victims", .text s.victims.name)]) := by
    refine ⟨?_, rfl⟩
    simp only [List.forall_mem_cons]
    exact ⟨readable_header _, htext _ _, htext _ _, fun _ h => absurd h List.not_mem_nil⟩
  have hmax : ∀ n : UInt32, n.toNat < 2 ^ 63 := fun n => Nat.lt_trans n.toNat_lt (by decide)
  have hall := (hnames.append (makes_number "seed" UInt64.toNat hseed)).append
    (makes_number "max_instances_per_node" UInt32.toNat (fun n (_ : s.maxInstancesPerNode = some n) =>
      hmax n))
  refine ⟨_, by rw [placementLines, hseedLine]; rfl, ?_⟩
  rw [tableSection, placementFields, assigns, List.map_append, List.map_append]
  exact hall

theorem makes_engineLines {s : EngineSettings} (htimeout : s.dispatchTimeoutMs.toNat < 2 ^ 63)
    (hlimit : s.maxConcurrentDispatches.toNat < 2 ^ 63)
    (hlog : s.errorLogCapacity.toNat < 2 ^ 63) :
    ∃ ls, engineLines s = some ls ∧ Makes ls (tableSection "engine" (engineFields s)) := by
  refine ⟨_, by rw [engineLines, numberLine_eq htimeout, numberLine_eq hlimit,
    numberLine_eq hlog]; rfl, ?_, rfl⟩
  simp only [List.forall_mem_cons]
  exact ⟨readable_header _, readable_number htimeout _, readable_number hlimit _,
    readable_number hlog _, fun _ h => absurd h List.not_mem_nil⟩

theorem makes_reconcileLines {s : ReconcileSettings} (h : s.intervalSecs.toNat < 2 ^ 63) :
    ∃ ls, reconcileLines s = some ls ∧
      Makes ls (tableSection "reconcile" (reconcileFields s)) := by
  refine ⟨_, by rw [reconcileLines, numberLine_eq h]; rfl, ?_, rfl⟩
  simp only [List.forall_mem_cons]
  exact ⟨readable_header _, readable_number h _, fun _ h => absurd h List.not_mem_nil⟩

variable {c : Config}

theorem makes_lines (h : ∀ n ∈ c.integers, n < 2 ^ 63) :
    ∃ ls, c.lines = some ls ∧ Makes ls (assigns c.emptyEntries ++ c.sections) := by
  have hseed : ∀ n, c.placement.seed = some n → n.toNat < 2 ^ 63 := fun n hn =>
    h _ (by simp [integers, hn])
  obtain ⟨placement, hplacement, makesPlacement⟩ := makes_placementLines hseed
  obtain ⟨engine, hengine, makesEngine⟩ := makes_engineLines
    (h c.engine.dispatchTimeoutMs.toNat (by simp [integers]))
    (h c.engine.maxConcurrentDispatches.toNat (by simp [integers]))
    (h c.engine.errorLogCapacity.toNat (by simp [integers]))
  obtain ⟨reconcile, hreconcile, makesReconcile⟩ := makes_reconcileLines
    (h c.reconcile.intervalSecs.toNat (by simp [integers]))
  refine ⟨_, by rw [lines, hplacement, hengine, hreconcile]; rfl, ?_⟩
  have hempty : Makes (emptyLine "regions" c.regions ++ emptyLine "nodes" c.nodes)
      (assigns c.emptyEntries) := by
    rw [assigns, emptyEntries, List.map_append]
    exact (makes_emptyLine ..).append (makes_emptyLine ..)
  have hall := ((((hempty.append (.flatMap makes_regionLines c.regions)).append
    (.flatMap makes_nodeLines c.nodes)).append makesPlacement).append makesEngine).append
    makesReconcile
  simpa only [sections, List.flatMap_map, List.append_assoc] using hall

/-! ### Tables -/

theorem distinct_mapFields (m : SortedMap String String) :
    ((mapFields m).map (·.1)).Nodup := by
  rw [mapFields, List.map_map]
  exact m.nodup_keys

theorem distinct_regionElement (d : Region.Declaration) : (regionElement d).Distinct :=
  ⟨show ["path", "inherit_properties", "deployment_target", "cluster", "properties"].Nodup by
    decide, distinct_mapFields _⟩

theorem distinct_nodeElement (b : NodeBinding) : (nodeElement b).Distinct := by
  refine ⟨?_, distinct_mapFields _⟩
  simp only [Element.table, nodeElement]
  cases b.region with
  | none => exact show ["id", "healthy", "labels"].Nodup by decide
  | some region => exact show ["id", "region", "healthy", "labels"].Nodup by decide

theorem distinct_placementFields (s : PlacementSettings) :
    ((placementFields s).map (·.1)).Nodup := by
  unfold placementFields
  cases s.seed <;> cases s.maxInstancesPerNode <;> simp

theorem distinct_engineFields (s : EngineSettings) : ((engineFields s).map (·.1)).Nodup :=
  show ["dispatch_timeout_ms", "max_concurrent_dispatches", "error_log_capacity"].Nodup by decide

/-- The table of a configuration. -/
def table (c : Config) : Table :=
  c.emptyEntries ++
  tablesEntry "regions" ((c.regions.map regionElement).map (·.table)) ++
  tablesEntry "nodes" ((c.nodes.map nodeElement).map (·.table)) ++
  [("placement", .table .header (placementFields c.placement))] ++
  [("engine", .table .header (engineFields c.engine))] ++
  [("reconcile", .table .header (reconcileFields c.reconcile))]

theorem emptyEntry_of_ne {α : Type} {key : String} {xs : List α} (h : xs ≠ []) :
    emptyEntry key xs = [] :=
  if_neg fun hempty => h (List.isEmpty_iff.1 hempty)

theorem key_of_mem_emptyEntry {α : Type} {key : String} {xs : List α} {e : String × Item}
    (h : e ∈ emptyEntry key xs) : e.1 = key := by
  cases xs with
  | nil => rw [List.mem_singleton.1 h]
  | cons x xs => cases h

theorem key_of_mem_tablesEntry {key : String} {elements : List Table} {e : String × Item}
    (h : e ∈ tablesEntry key elements) : e.1 = key := by
  cases elements with
  | nil => cases h
  | cons t rest => rw [List.mem_singleton.1 h]

theorem lookup_emptyEntry {α : Type} {key k : String} (xs : List α) (h : k ≠ key) :
    (emptyEntry key xs).lookup k = none := by
  cases xs with
  | nil => rw [emptyEntry, List.isEmpty_nil, if_pos rfl, List.lookup_cons, beq_false_of_ne h]; rfl
  | cons x xs => rfl

theorem lookup_tablesEntry {key k : String} (elements : List Table) (h : k ≠ key) :
    (tablesEntry key elements).lookup k = none := by
  cases elements with
  | nil => rfl
  | cons t rest =>
    rw [tablesEntry, List.isEmpty_cons, if_neg Bool.false_ne_true, List.lookup_cons,
      beq_false_of_ne h]
    rfl

theorem adds_sections (c : Config) : Adds c.sections c.emptyEntries c.table := by
  -- each section opens a key that none of those before it has
  refine ((((Adds.elements ?regions ?_).append (Adds.elements ?nodes ?_)).append
    (Adds.table ?_ (distinct_placementFields _))).append (Adds.table ?_ ?_)).append
    (Adds.table ?_ (List.nodup_singleton _))
  case regions =>
    intro hne
    rw [emptyEntries, emptyEntry_of_ne fun h => hne (by rw [h]; rfl)]
    exact lookup_emptyEntry _ (by decide)
  case nodes =>
    -- with nodes there is no empty list of them, which would have their key
    intro hne
    have hempty : emptyEntry "nodes" c.nodes = [] := emptyEntry_of_ne fun h => hne (by rw [h]; rfl)
    rw [emptyEntries, hempty]
    simp [List.lookup_append, lookup_emptyEntry, lookup_tablesEntry]
  · exact List.forall_mem_map.2 fun d _ => distinct_regionElement d
  · exact List.forall_mem_map.2 fun b _ => distinct_nodeElement b
  · simp [emptyEntries, List.lookup_append, lookup_emptyEntry, lookup_tablesEntry]
  · simp [emptyEntries, List.lookup_append, lookup_emptyEntry, lookup_tablesEntry]
  · exact distinct_engineFields _
  · simp [emptyEntries, List.lookup_append, lookup_emptyEntry, lookup_tablesEntry]

/-- The statements of a configuration make its table. -/
theorem ofStatements_sections (c : Config) :
    Table.ofStatements (assigns c.emptyEntries ++ c.sections) = some c.table := by
  have hkeys : (c.emptyEntries.map (·.1)).Nodup := by
    unfold emptyEntries
    cases c.regions <;> cases c.nodes <;> simp [emptyEntry]
  have hstart : (assigns c.emptyEntries).foldlM Draft.run {} = some ⟨c.emptyEntries, []⟩ :=
    located_root.run_assigns (t := []) hkeys
  obtain ⟨here, hsections⟩ := c.adds_sections []
  rw [Table.ofStatements, List.foldlM_append, hstart, Option.bind_eq_bind, Option.bind_some,
    hsections]
  rfl

/-! ### Values -/

theorem map_mapFields (m : SortedMap String String) :
    Decoder.map .text (Item.table .header (mapFields m)).datum = .ok m := by
  have hfields : (mapFields m).fields = m.toList.map fun e => (e.1, .text (some e.2)) := by
    rw [mapFields, Table.fields, List.map_map]
    rfl
  change Decoder.map .text (mapFields m).datum = _
  rw [Table.datum_eq, hfields, Decoder.map_text]

section

open Shape (required withDefault optional)
open Table (reads_required reads_withDefault reads_optional decode_datum)

theorem decode_regionElement (d : Region.Declaration) :
    Region.Declaration.shape.decode dialect (regionElement d).table.datum = .ok d := by
  have hkeys := (distinct_regionElement d).table
  generalize ht : (regionElement d).table = t at hkeys
  have hpath : (required "path" .text).Reads t.fields d.path :=
    reads_required (.text d.path) hkeys (by simp [← ht, regionElement, Element.table]) rfl
  have hproperties : (withDefault "properties" (.map .text) .empty).Reads t.fields
      d.settings.properties :=
    reads_withDefault (.table .header (mapFields _)) hkeys
      (by simp [← ht, regionElement, Element.table]) (map_mapFields _)
  have hinherit : (withDefault "inherit_properties" .bool true).Reads t.fields
      d.settings.inheritProperties :=
    reads_withDefault (.bool d.settings.inheritProperties) hkeys
      (by simp [← ht, regionElement, Element.table]) rfl
  have htarget : (withDefault "deployment_target" .bool false).Reads t.fields
      d.settings.deploymentTarget :=
    reads_withDefault (.bool d.settings.deploymentTarget) hkeys
      (by simp [← ht, regionElement, Element.table]) rfl
  have hcluster : (withDefault "cluster" .bool false).Reads t.fields d.settings.cluster :=
    reads_withDefault (.bool d.settings.cluster) hkeys
      (by simp [← ht, regionElement, Element.table]) rfl
  refine decode_datum (.seq (.map hpath _) (.seq (.seq (.seq (.map hproperties _) hinherit) htarget)
    hcluster)) hkeys ?_
  simp only [← ht, regionElement, Element.table, List.cons_append, List.nil_append,
    List.forall_mem_cons]
  exact ⟨rfl, rfl, rfl, rfl, rfl, fun _ h => absurd h List.not_mem_nil⟩

theorem decode_nodeElement (b : NodeBinding) :
    NodeBinding.shape.decode dialect (nodeElement b).table.datum = .ok b := by
  have hkeys := (distinct_nodeElement b).table
  generalize ht : (nodeElement b).table = t at hkeys
  have hid : (required "id" .text).Reads t.fields b.id :=
    reads_required (.text b.id) hkeys (by simp [← ht, nodeElement, Element.table]) rfl
  have hregion : (optional "region" .text).Reads t.fields b.region := by
    refine reads_optional .text hkeys (fun i => ?_) fun _ _ => rfl
    simp [← ht, nodeElement, Element.table]
  have hlabels : (withDefault "labels" (.map .text) .empty).Reads t.fields b.labels :=
    reads_withDefault (.table .header (mapFields _)) hkeys
      (by simp [← ht, nodeElement, Element.table]) (map_mapFields _)
  have hhealthy : (withDefault "healthy" .bool true).Reads t.fields b.healthy :=
    reads_withDefault (.bool b.healthy) hkeys
      (by simp [← ht, nodeElement, Element.table]) rfl
  refine decode_datum (.seq (.seq (.seq (.map hid _) hregion) hlabels) hhealthy) hkeys
    fun e he => ?_
  simp only [← ht, nodeElement, Element.table, List.mem_append, List.mem_singleton,
    Option.mem_toList, Option.map_eq_some_iff] at he
  obtain ((rfl | ⟨_, -, rfl⟩) | rfl) | rfl := he <;> rfl

theorem decode_placementFields (s : PlacementSettings) :
    (PlacementSettings.shape dialect).decode dialect (placementFields s).datum = .ok s := by
  have hkeys := distinct_placementFields s
  generalize ht : placementFields s = t at hkeys
  have hpolicy : (withDefault "policy" (.variant dialect PolicyKind.words) .spread).Reads t.fields
      s.policy := by
    refine reads_withDefault (.text s.policy.word) hkeys
      (by simp [← ht, placementFields]) ?_
    cases s.policy <;> rfl
  have hvictims : (withDefault "victims" (.variant dialect Placement.VictimPolicy.words)
      .mostLoadedOldestFirst).Reads t.fields s.victims := by
    refine reads_withDefault (.text s.victims.name) hkeys
      (by simp [← ht, placementFields]) ?_
    cases s.victims <;> rfl
  have hseed : (optional "seed" .word64).Reads t.fields s.seed := by
    refine reads_optional (fun n => .integer n.toNat) hkeys (fun i => ?_) fun n _ => ?_
    · simp [← ht, placementFields]
    · exact congrArg (some <$> ·) (Decoder.word64_natural n)
  have hmax : (optional "max_instances_per_node" .word32).Reads t.fields s.maxInstancesPerNode := by
    refine reads_optional (fun n => .integer n.toNat) hkeys (fun i => ?_) fun n _ => ?_
    · simp [← ht, placementFields]
    · exact congrArg (some <$> ·) (Decoder.word32_natural n)
  refine decode_datum (.seq (.seq (.seq (.map hpolicy _) hvictims) hseed) hmax) hkeys fun e he => ?_
  simp only [← ht, placementFields, List.mem_append, List.mem_cons, List.not_mem_nil, or_false,
    Option.mem_toList, Option.map_eq_some_iff] at he
  obtain ((rfl | rfl) | ⟨_, -, rfl⟩) | ⟨_, -, rfl⟩ := he <;> rfl

/-- A field of 64 bits is read as it is. -/
theorem reads_word64 {t : Table} (hkeys : (t.map (·.1)).Nodup) {name : String} {n default : UInt64}
    (h : (name, .integer n.toNat) ∈ t) : (withDefault name .word64 default).Reads t.fields n :=
  reads_withDefault (.integer n.toNat) hkeys h (Decoder.word64_natural n)

theorem decode_engineFields (s : EngineSettings) :
    EngineSettings.shape.decode dialect (engineFields s).datum = .ok s := by
  have hkeys := distinct_engineFields s
  refine decode_datum (.seq (.seq (.map (reads_word64 hkeys (n := s.dispatchTimeoutMs) ?_) _)
    (reads_word64 hkeys (n := s.maxConcurrentDispatches) ?_))
    (reads_word64 hkeys (n := s.errorLogCapacity) ?_)) hkeys ?_
  case refine_4 =>
    simp only [engineFields, List.forall_mem_cons]
    exact ⟨rfl, rfl, rfl, fun _ h => absurd h List.not_mem_nil⟩
  all_goals simp [engineFields]

theorem decode_reconcileFields (s : ReconcileSettings) :
    ReconcileSettings.shape.decode dialect (reconcileFields s).datum = .ok s := by
  have hkeys : ((reconcileFields s).map (·.1)).Nodup := List.nodup_singleton _
  refine decode_datum (.map (reads_word64 hkeys (n := s.intervalSecs) ?_) _) hkeys ?_
  · exact List.mem_singleton.2 rfl
  · exact List.forall_mem_singleton.2 rfl

/-- A list is read from its tables, or from an empty array if it has no elements. -/
theorem reads_list {α : Type} {key : String} {decoder : Decoder α} {xs : List α} {f : α → Element}
    (hdecoder : ∀ x, decoder (f x).table.datum = .ok x) {t : Table} (hkeys : (t.map (·.1)).Nodup)
    (hempty : ∀ e ∈ emptyEntry key xs, e ∈ t)
    (htables : ∀ e ∈ tablesEntry key ((xs.map f).map (·.table)), e ∈ t) :
    (withDefault key (.list decoder) []).Reads t.fields xs := by
  cases xs with
  | nil => exact reads_withDefault (.array []) hkeys (hempty _ List.mem_cons_self) rfl
  | cons x xs =>
    refine reads_withDefault (.tables (((x :: xs).map f).map (·.table))) hkeys
      (htables _ List.mem_cons_self) ?_
    rw [datum_tables, List.map_map, List.map_map]
    exact Decoder.list_map fun x _ => hdecoder x

theorem distinct_table (c : Config) : (c.table.map (·.1)).Nodup := by
  unfold table emptyEntries
  cases c.regions <;> cases c.nodes <;> simp [emptyEntry, tablesEntry]

/-- The table of a configuration is read as the configuration. -/
theorem decode_table (c : Config) :
    (Config.shape dialect).decode dialect c.table.datum = .ok c := by
  have hkeys := distinct_table c
  have hregions : (withDefault "regions" (.list (Region.Declaration.shape.decode dialect)) []).Reads
      c.table.fields c.regions := by
    refine reads_list decode_regionElement hkeys (fun e he => ?_) fun e he => ?_ <;>
      simp only [table, emptyEntries, List.mem_append, he, true_or, or_true]
  have hnodes : (withDefault "nodes" (.list (NodeBinding.shape.decode dialect)) []).Reads
      c.table.fields c.nodes := by
    refine reads_list decode_nodeElement hkeys (fun e he => ?_) fun e he => ?_ <;>
      simp only [table, emptyEntries, List.mem_append, he, true_or, or_true]
  have hplacement : (withDefault "placement" ((PlacementSettings.shape dialect).decode dialect)
      {}).Reads c.table.fields c.placement :=
    reads_withDefault (.table .header _) hkeys (by simp [table])
      (decode_placementFields c.placement)
  have hengine : (withDefault "engine" (EngineSettings.shape.decode dialect) {}).Reads
      c.table.fields c.engine :=
    reads_withDefault (.table .header _) hkeys (by simp [table]) (decode_engineFields c.engine)
  have hreconcile : (withDefault "reconcile" (ReconcileSettings.shape.decode dialect) {}).Reads
      c.table.fields c.reconcile :=
    reads_withDefault (.table .header _) hkeys (by simp [table])
      (decode_reconcileFields c.reconcile)
  refine decode_datum (.seq (.seq (.seq (.seq (.map hregions _) hnodes) hplacement) hengine)
    hreconcile) hkeys fun e he => ?_
  simp only [table, emptyEntries, List.mem_append, List.mem_singleton] at he
  obtain (((((he | he) | he) | he) | rfl) | rfl) | rfl := he
  · rw [key_of_mem_emptyEntry he]; rfl
  · rw [key_of_mem_emptyEntry he]; rfl
  · rw [key_of_mem_tablesEntry he]; rfl
  · rw [key_of_mem_tablesEntry he]; rfl
  all_goals rfl

end

/-! ### The round trip -/

/-- A valid configuration whose integers have 63 bits is read back as it was written. -/
theorem ofToml_toToml {c : Config} (hvalid : c.validate = .ok ())
    (hbits : ∀ n ∈ c.integers, n < 2 ^ 63) : ∃ w, c.toToml = some w ∧ ofToml w = .ok c := by
  obtain ⟨ls, hlines, hreadable, hstatements⟩ := makes_lines hbits
  refine ⟨writeLines ls, by rw [toToml, hlines]; rfl, ?_⟩
  have hdocument : Reader.document (writeLines ls) = some c.table := by
    rw [Reader.document, Reader.statements_writeLines hreadable, Option.bind_some, hstatements,
      ofStatements_sections]
  have hread : Reader.decode ((Config.shape dialect).decode dialect) (writeLines ls) = .ok c := by
    rw [Reader.decode, hdocument]
    exact decode_table c
  rw [ofToml, hread]
  change (do c.validate.mapError TomlError.invalid; return c) = _
  rw [hvalid]
  rfl

/-! ### Integers that are read -/

section

open Shape (withDefault optional build_map build_seq build_withDefault build_of_decode)

theorem parts_withinRange {d : Datum} (h : WithinRange d) : ∀ p ∈ d.parts, WithinRange p := by
  cases h with
  | list h _ => exact h
  | record h _ => exact List.forall_mem_map.2 h
  | _ => exact fun _ h => absurd h List.not_mem_nil

variable {find : String → Option Datum} {name : String}

theorem withinRange_word64 (hfind : ∀ k p, find k = some p → WithinRange p) {n default : UInt64}
    (hdefault : default.toNat < 2 ^ 63)
    (h : (withDefault name .word64 default).build find = .ok n) : n.toNat < 2 ^ 63 := by
  rcases build_withDefault h with rfl | ⟨d, hd, hn⟩
  · -- the field was left out
    exact hdefault
  · exact inRange_iff.1 ((hfind _ _ hd).word64 hn)

theorem withinRange_optional (hfind : ∀ k p, find k = some p → WithinRange p) {n : UInt64}
    (h : (optional name .word64).build find = .ok (some n)) : n.toNat < 2 ^ 63 := by
  obtain ⟨d, hd, hn⟩ := (build_withDefault h).resolve_left (Option.some_ne_none n)
  unfold Decoder.optional at hn
  split at hn
  · cases hn
  · cases hword : Decoder.word64 d with
    | error fault => rw [hword] at hn; cases hn
    | ok m =>
      rw [hword] at hn
      cases hn
      exact inRange_iff.1 ((hfind _ _ hd).word64 hword)

variable {d : Datum}

theorem seed_lt (hd : WithinRange d) {s : PlacementSettings}
    (h : (PlacementSettings.shape dialect).decode dialect d = .ok s) {n : UInt64}
    (hn : s.seed = some n) : n.toNat < 2 ^ 63 := by
  obtain ⟨find, hbuild, hparts⟩ := build_of_decode h
  have hfind := fun k p hp => parts_withinRange hd p (hparts k p hp)
  obtain ⟨_, max, h₁, -, rfl⟩ := build_seq hbuild
  obtain ⟨_, seed, h₂, hseed, rfl⟩ := build_seq h₁
  obtain ⟨_, victims, h₃, -, rfl⟩ := build_seq h₂
  obtain ⟨policy, -, rfl⟩ := build_map h₃
  obtain rfl : seed = some n := hn
  exact withinRange_optional hfind hseed

theorem engine_lt (hd : WithinRange d) {s : EngineSettings}
    (h : EngineSettings.shape.decode dialect d = .ok s) :
    s.dispatchTimeoutMs.toNat < 2 ^ 63 ∧ s.maxConcurrentDispatches.toNat < 2 ^ 63 ∧
      s.errorLogCapacity.toNat < 2 ^ 63 := by
  obtain ⟨find, hbuild, hparts⟩ := build_of_decode h
  have hfind := fun k p hp => parts_withinRange hd p (hparts k p hp)
  obtain ⟨_, log, h₁, hlog, rfl⟩ := build_seq hbuild
  obtain ⟨_, limit, h₂, hlimit, rfl⟩ := build_seq h₁
  obtain ⟨timeout, htimeout, rfl⟩ := build_map h₂
  exact ⟨withinRange_word64 hfind (by decide) htimeout, withinRange_word64 hfind (by decide) hlimit,
    withinRange_word64 hfind (by decide) hlog⟩

theorem interval_lt (hd : WithinRange d) {s : ReconcileSettings}
    (h : ReconcileSettings.shape.decode dialect d = .ok s) : s.intervalSecs.toNat < 2 ^ 63 := by
  obtain ⟨find, hbuild, hparts⟩ := build_of_decode h
  have hfind := fun k p hp => parts_withinRange hd p (hparts k p hp)
  obtain ⟨interval, hinterval, rfl⟩ := build_map hbuild
  exact withinRange_word64 hfind (by decide) hinterval

/-- The integers of a configuration read from data in range have 63 bits. -/
theorem integers_lt (hd : WithinRange d) {c : Config}
    (h : (Config.shape dialect).decode dialect d = .ok c) : ∀ n ∈ c.integers, n < 2 ^ 63 := by
  obtain ⟨find, hbuild, hparts⟩ := build_of_decode h
  have hfind := fun k p hp => parts_withinRange hd p (hparts k p hp)
  obtain ⟨_, reconcile, h₁, hreconcile, rfl⟩ := build_seq hbuild
  obtain ⟨_, engine, h₂, hengine, rfl⟩ := build_seq h₁
  obtain ⟨_, placement, h₃, hplacement, rfl⟩ := build_seq h₂
  obtain ⟨_, nodes, h₄, -, rfl⟩ := build_seq h₃
  obtain ⟨regions, -, rfl⟩ := build_map h₄
  have hseed : ∀ n, placement.seed = some n → n.toNat < 2 ^ 63 := by
    rcases build_withDefault hplacement with rfl | ⟨p, hp, hplacement⟩
    · rintro n ⟨⟩
    · exact fun n hn => seed_lt (hfind _ _ hp) hplacement hn
  have hmax : ∀ n : UInt32, n.toNat < 2 ^ 63 := fun n => Nat.lt_trans n.toNat_lt (by decide)
  have hcalls : engine.dispatchTimeoutMs.toNat < 2 ^ 63 ∧
      engine.maxConcurrentDispatches.toNat < 2 ^ 63 ∧ engine.errorLogCapacity.toNat < 2 ^ 63 := by
    rcases build_withDefault hengine with rfl | ⟨p, hp, hengine⟩
    · decide
    · exact engine_lt (hfind _ _ hp) hengine
  have hinterval : reconcile.intervalSecs.toNat < 2 ^ 63 := by
    rcases build_withDefault hreconcile with rfl | ⟨p, hp, hreconcile⟩
    · decide
    · exact interval_lt (hfind _ _ hp) hreconcile
  -- the limit of instances has 32 bits, whatever it was read from
  simp only [integers, List.mem_append, List.mem_map, Option.mem_toList, List.mem_cons,
    List.not_mem_nil, or_false]
  rintro n ((⟨m, hm, rfl⟩ | ⟨m, -, rfl⟩) | rfl | rfl | rfl | rfl)
  · exact hseed m hm
  · exact hmax m
  · exact hcalls.1
  · exact hcalls.2.1
  · exact hcalls.2.2
  · exact hinterval

end

/-- A configuration that is read is valid, and its integers have 63 bits. -/
theorem valid_of_ofToml {text : String} {c : Config} (h : ofToml text = .ok c) :
    c.validate = .ok () ∧ ∀ n ∈ c.integers, n < 2 ^ 63 := by
  unfold ofToml at h
  cases hread : Reader.decode ((Config.shape dialect).decode dialect) text with
  | error fault => rw [hread] at h; cases h
  | ok c' =>
    rw [hread] at h
    change (do c'.validate.mapError TomlError.invalid; return c') = _ at h
    cases hvalid : c'.validate with
    | error defect => rw [hvalid] at h; cases h
    | ok u =>
      rw [hvalid] at h
      cases h
      refine ⟨hvalid, ?_⟩
      unfold Reader.decode at hread
      split at hread
      · next t ht => exact integers_lt (Reader.inRange_document ht).datum hread
      · cases hread

/-- **Configurations survive being written.** What is read from any text can be written, and so can
every valid configuration whose integers have 63 bits; reading the written text gives the same
configuration. -/
theorem toml_round_trip :
    (∀ text c, ofToml text = .ok c → ∃ w, c.toToml = some w ∧ ofToml w = .ok c) ∧
    ∀ c : Config, c.validate = .ok () → (∀ n ∈ c.integers, n < 2 ^ 63) →
      ∃ w, c.toToml = some w ∧ ofToml w = .ok c :=
  ⟨fun _ _ h => ofToml_toToml (valid_of_ofToml h).1 (valid_of_ofToml h).2,
    fun _ => ofToml_toToml⟩

/-- A configuration with texts that need quotes and escapes, and the largest integer. -/
def quoted : Config where
  regions :=
    [{ path := "eu.\"west\"\n'''.b\\", settings := { properties := .ofList [("a b", "\t\u0007")] } }]
  nodes := [{ id := "nœud", region := some "'eu'", labels := .ofList [("", "\"\"\"")] }]
  placement := { policy := .random, seed := some 9223372036854775807 }

theorem toml_round_trip_quoted :
    quoted.validate = .ok () ∧ (∀ n ∈ quoted.integers, n < 2 ^ 63) ∧
    ∃ w, quoted.toToml = some w ∧ ofToml w = .ok quoted ∧
      ∃ w', quoted.toToml = some w' ∧ ofToml w' = .ok quoted := by
  have hvalid : quoted.validate = .ok () := by decide +kernel
  have hbits : ∀ n ∈ quoted.integers, n < 2 ^ 63 := by decide
  obtain ⟨w, hw, hread⟩ := toml_round_trip.2 quoted hvalid hbits
  exact ⟨hvalid, hbits, w, hw, hread, toml_round_trip.1 w quoted hread⟩

end Config

end FleetControl
