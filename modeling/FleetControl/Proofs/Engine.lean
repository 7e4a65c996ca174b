import FleetControl.Dispatch
import FleetControl.Proofs.Dispatch.Batch
import FleetControl.Proofs.SortedMap
import Mathlib.Algebra.Order.Group.Multiset
import Std.Data.String.ToNat

/-!
# What the engine holds

The containers of the engine are kept under distinct handles (`Engine.handle_injective`), so a new
container takes the place of none (`Engine.Numbered`). What the engine holds, handles with their
nodes (`Engine.holdings`), grows by one with a creation and shrinks by one with the removal of an
instance that it holds.
-/

namespace FleetControl

namespace Text

/-- The digits of a number can be read back, with zeros in front or without. -/
theorem ofDigitChars_padded (width n : Nat) :
    Nat.ofDigitChars 10 (padded width n).toList 0 = n := by
  rw [padded, String.toList_append, String.toList_ofList, Nat.ofDigitChars_append,
    Nat.ofDigitChars_replicate_zero, Nat.mul_zero, Nat.toList_repr, Nat.ofDigitChars_ten_toDigits]

theorem padded_injective (width : Nat) : Function.Injective (padded width) := by
  intro a b h
  rw [← ofDigitChars_padded width a, h, ofDigitChars_padded]

end Text

/-- The handle of an instance and its node. -/
def Instance.holding (i : Instance) : String × String := (i.handle, i.nodeId)

/-- The handle of a container and its node. -/
def RunningContainer.holding (c : RunningContainer) : String × String := (c.handle, c.nodeId)

namespace Engine

theorem handle_injective : Function.Injective handle := by
  intro a b h
  exact Text.padded_injective 6 ((String.append_right_inj _).1 h)

/-- What the engine holds. -/
def holdings (e : Engine) : Multiset (String × String) := e.running.map RunningContainer.holding

/-- Every container is kept under its handle, which has been given before. -/
def Numbered (e : Engine) : Prop :=
  ∀ h c, e.containers.get? h = some c → c.handle = h ∧ ∃ n < e.nextHandle, h = handle n

theorem numbered_of_empty {e : Engine} (h : e.containers = .empty) : e.Numbered := by
  intro handle c hc
  rw [h, SortedMap.get?_empty] at hc
  cases hc

theorem Alike.numbered {e e' : Engine} (h : e.Alike e') (hn : e.Numbered) : e'.Numbered := by
  rw [Numbered, h.containers, h.nextHandle]
  exact hn

theorem Alike.holdings {e e' : Engine} (h : e.Alike e') : e'.holdings = e.holdings := by
  rw [Engine.holdings, running, h.containers]
  rfl

theorem mem_holdings {e : Engine} {x : String × String} :
    x ∈ e.holdings ↔ ∃ h c, e.containers.get? h = some c ∧ c.holding = x := by
  rw [Engine.holdings, Multiset.mem_coe, List.mem_map]
  constructor
  · rintro ⟨c, hc, hx⟩
    obtain ⟨h, hget⟩ := SortedMap.mem_values.1 hc
    exact ⟨h, c, hget, hx⟩
  · rintro ⟨h, c, hget, hx⟩
    exact ⟨c, SortedMap.mem_values.2 ⟨h, hget⟩, hx⟩

theorem Numbered.handles {e : Engine} (h : e.Numbered) :
    e.running.map (·.handle) = e.containers.keys := by
  rw [running, SortedMap.values, SortedMap.keys, List.map_map]
  refine List.map_congr_left fun entry hentry => ?_
  exact (h _ _ (SortedMap.mem_toList.1 hentry)).1

/-- The handles that the engine holds are distinct. -/
theorem Numbered.nodup_handles {e : Engine} (h : e.Numbered) :
    (e.running.map (·.handle)).Nodup := by
  rw [h.handles]
  exact SortedMap.nodup_keys _

theorem Numbered.get?_next {e : Engine} (h : e.Numbered) :
    e.containers.get? (handle e.nextHandle) = none := by
  cases hget : e.containers.get? (handle e.nextHandle) with
  | none => rfl
  | some c =>
    obtain ⟨n, hn, heq⟩ := (h _ _ hget).2
    exact absurd (handle_injective heq) (Nat.ne_of_gt hn)

/-- The container of an instance that the engine holds is kept under its handle. -/
theorem Numbered.get?_of_mem {e : Engine} (h : e.Numbered) {i : Instance}
    (hi : i.holding ∈ e.holdings) :
    ∃ c, e.containers.get? i.handle = some c ∧ c.holding = i.holding := by
  obtain ⟨handle, c, hget, hc⟩ := mem_holdings.1 hi
  have hhandle : c.handle = i.handle := congrArg Prod.fst hc
  exact ⟨c, by rw [← hhandle, (h _ _ hget).1]; exact hget, hc⟩

theorem Numbered.kill {e : Engine} (h : e.Numbered) (handle : String) : (e.kill handle).Numbered := by
  intro h' c hc
  rw [Engine.kill, SortedMap.get?_erase] at hc
  split at hc
  · cases hc
  · exact h h' c hc

/-- A container comes under the next handle. -/
theorem Numbered.insert {e : Engine} (h : e.Numbered) {c : RunningContainer}
    (hc : c.handle = handle e.nextHandle) {e' : Engine}
    (hcontainers : e'.containers = e.containers.insert c.handle c)
    (hnext : e'.nextHandle = e.nextHandle + 1) : e'.Numbered := by
  intro k c' hget
  rw [hcontainers] at hget
  rw [hnext]
  by_cases hk : k = c.handle
  · rw [hk, SortedMap.get?_insert_self, Option.some.injEq] at hget
    exact ⟨by rw [← hget, hk], e.nextHandle, Nat.lt_succ_self _, by rw [hk, hc]⟩
  · rw [SortedMap.get?_insert_of_ne hk] at hget
    obtain ⟨hhandle, n, hn, hkn⟩ := h k c' hget
    exact ⟨hhandle, n, Nat.lt_succ_of_lt hn, hkn⟩

end Engine

namespace Dispatch

open Engine

theorem perform_create (e : Engine) (node : Node) (spec : ContainerSpec) (seq : Nat) :
    (create node spec seq).perform e =
      if e.isFailing node.id then (e, .error (.engine (.refusedCreate node.id spec.image)))
      else ({ e with
        containers := e.containers.insert (handle e.nextHandle)
          ⟨handle e.nextHandle, node.id, spec.image⟩
        nextHandle := e.nextHandle + 1 }, .ok (handle e.nextHandle)) := by
  cases hfail : e.isFailing node.id <;> simp [perform, Engine.create, hfail]

theorem perform_remove (e : Engine) (target : Instance) (stale : Bool) :
    (remove target stale).perform e =
      if e.isFailing target.nodeId then
        (e, .error (.engine (.refusedRemove target.nodeId target.handle)))
      else (e.kill target.handle, .ok target.handle) := by
  cases hfail : e.isFailing target.nodeId <;> simp [perform, Engine.remove, hfail]

/-- A creation that succeeds adds one container. -/
theorem perform_create_ok {e : Engine} (h : e.Numbered) {node : Node} {spec : ContainerSpec}
    {seq : Nat} {handle : String} (hok : ((create node spec seq).perform e).2 = .ok handle) :
    ((create node spec seq).perform e).1.Numbered ∧
      ((create node spec seq).perform e).1.holdings = (handle, node.id) ::ₘ e.holdings := by
  rw [perform_create] at hok ⊢
  by_cases hfail : e.isFailing node.id = true
  · rw [if_pos hfail] at hok
    cases hok
  · rw [if_neg hfail] at hok ⊢
    cases hok
    refine ⟨h.insert (c := ⟨Engine.handle e.nextHandle, node.id, spec.image⟩) rfl rfl rfl, ?_⟩
    have hperm := SortedMap.perm_insert_of_get?_eq_none
      (⟨Engine.handle e.nextHandle, node.id, spec.image⟩ : RunningContainer) h.get?_next
    exact Multiset.coe_eq_coe.2 ((hperm.map Prod.snd).map RunningContainer.holding)

/-- The removal of an instance whose container is there takes that container away. -/
theorem perform_remove_ok {e : Engine} (h : e.Numbered) {target : Instance} {stale : Bool}
    {handle : String} (hok : ((remove target stale).perform e).2 = .ok handle)
    (hmem : target.holding ∈ e.holdings) :
    ((remove target stale).perform e).1.Numbered ∧
      e.holdings = target.holding ::ₘ ((remove target stale).perform e).1.holdings := by
  rw [perform_remove] at hok ⊢
  by_cases hfail : e.isFailing target.nodeId = true
  · rw [if_pos hfail] at hok
    cases hok
  · rw [if_neg hfail]
    obtain ⟨c, hget, hc⟩ := h.get?_of_mem hmem
    refine ⟨h.kill _, ?_⟩
    rw [← hc]
    exact Multiset.coe_eq_coe.2
      (((SortedMap.perm_cons_erase hget).map Prod.snd).map RunningContainer.holding)

/-- A dispatch that fails leaves the engine as it was. -/
theorem perform_error {e : Engine} {x : Dispatch} {error : DispatchError}
    (h : (x.perform e).2 = .error error) : (x.perform e).1 = e := by
  cases x with
  | create node spec seq =>
    rw [perform_create] at h ⊢
    split at h
    · next hfail => rw [if_pos hfail]
    · cases h
  | remove target stale =>
    rw [perform_remove] at h ⊢
    split at h
    · next hfail => rw [if_pos hfail]
    · cases h

end Dispatch

end FleetControl
