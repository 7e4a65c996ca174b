import FleetControl.Registry
import FleetControl.Proofs.SortedMap

/-!
# Registries list each node under its id

A registry is *keyed* if every node is registered under its own id (`Registry.Keyed`). Registering,
removing and changing nodes keep it so, hence the listed nodes are found again by their ids
(`Registry.Keyed.knows_of_mem_list`).
-/

namespace FleetControl

namespace Registry

/-- A node is registered under the id. -/
def Knows (r : Registry) (id : String) : Prop := (r.lookup id).isSome

/-- Every node is registered under its own id. -/
def Keyed (r : Registry) : Prop := ∀ id node, r.lookup id = some node → node.id = id

theorem keyed_empty : Keyed {} := by
  intro id node h
  cases h

theorem Keyed.upsert {r : Registry} (h : r.Keyed) (node : Node) : (r.upsert node).Keyed := by
  intro id n hn
  by_cases hid : id = node.id
  · rw [lookup, Registry.upsert, hid, SortedMap.get?_insert_self, Option.some.injEq] at hn
    rw [hid, hn]
  · rw [lookup, Registry.upsert, SortedMap.get?_insert_of_ne hid] at hn
    exact h id n hn

theorem keyed_ofNodes (nodes : List Node) : (ofNodes nodes).Keyed := by
  suffices h : ∀ r : Registry, r.Keyed → (nodes.foldl Registry.upsert r).Keyed from h _ keyed_empty
  induction nodes with
  | nil => exact fun r h => h
  | cons node rest ih => exact fun r h => ih _ (h.upsert node)

theorem Keyed.remove {r : Registry} (h : r.Keyed) (id : String) : (r.remove id).Keyed := by
  intro q n hn
  rw [lookup, Registry.remove, SortedMap.get?_erase] at hn
  split at hn
  · cases hn
  · exact h q n hn

theorem lookup_modify {nodes : SortedMap String Node} {id q : String} {f : Node → Node} {n : Node}
    (hn : (nodes.modify id f).get? q = some n) :
    ∃ n₀, nodes.get? q = some n₀ ∧ (n = n₀ ∨ n = f n₀) := by
  rw [SortedMap.get?_modify] at hn
  split at hn
  · obtain ⟨n₀, hn₀, rfl⟩ := Option.map_eq_some_iff.1 hn
    exact ⟨n₀, hn₀, .inr rfl⟩
  · exact ⟨n, hn, .inl rfl⟩

theorem Keyed.setHealthy {r : Registry} (h : r.Keyed) (id : String) (healthy : Bool) :
    (r.setHealthy id healthy).Keyed := by
  intro q n hn
  obtain ⟨n₀, hn₀, hn₀' | hn₀'⟩ := lookup_modify hn
  · exact hn₀' ▸ h q n₀ hn₀
  · exact hn₀' ▸ h q n₀ hn₀

theorem Keyed.setLabel {r : Registry} (h : r.Keyed) (id key value : String) :
    (r.setLabel id key value).Keyed := by
  intro q n hn
  obtain ⟨n₀, hn₀, hn₀' | hn₀'⟩ := lookup_modify hn
  · exact hn₀' ▸ h q n₀ hn₀
  · exact hn₀' ▸ h q n₀ hn₀

/-- A listed node is found under its id. -/
theorem Keyed.knows_of_mem_list {r : Registry} (h : r.Keyed) {node : Node} (hn : node ∈ r.list) :
    r.Knows node.id := by
  obtain ⟨id, hid⟩ := SortedMap.mem_values.1 hn
  have : r.lookup id = some node := hid
  rw [Knows, h id node this, this, Option.isSome_some]

theorem Knows.upsert {r : Registry} {id : String} (h : r.Knows id) (node : Node) :
    (r.upsert node).Knows id := by
  by_cases hid : id = node.id
  · simp [Knows, lookup, Registry.upsert, hid, SortedMap.get?_insert_self]
  · simpa [Knows, lookup, Registry.upsert, SortedMap.get?_insert_of_ne hid] using h

theorem knows_modify {nodes : SortedMap String Node} {id : String} {f : Node → Node} {q : String}
    (h : (nodes.get? q).isSome) : ((nodes.modify id f).get? q).isSome := by
  rw [SortedMap.get?_modify]
  split <;> simpa using h

theorem Knows.setHealthy {r : Registry} {id : String} (h : r.Knows id) (q : String)
    (healthy : Bool) : (r.setHealthy q healthy).Knows id :=
  knows_modify h

theorem Knows.setLabel {r : Registry} {id : String} (h : r.Knows id) (q key value : String) :
    (r.setLabel q key value).Knows id :=
  knows_modify h

end Registry

end FleetControl
