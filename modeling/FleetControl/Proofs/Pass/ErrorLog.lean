import FleetControl.Proofs.Pass.Effects

/-!
# The error log

A record forgets the oldest failures when there is no room left, so of everything that was noted in
it, it has the end (`Deployment.Logs`). Noting a failure keeps that (`Deployment.Logs.recordFailure`),
and nothing else changes the log: neither a request nor taking a pass back, and along a pass only the
outcomes of its plans do (`Pass.logs_conclude`).

The last failures of the nodes are read off the log (`Deployment.lastErrors_get?`), so they are the
last of all that was noted, for those nodes that are in the log (`Deployment.Logs.remembers`).
-/

namespace FleetControl

namespace Deployment

variable {d d' work : Deployment} {noted : List Failure} {x : Failure} {node : String}

/-- The log is the end of what was noted, as much of it as there is room for. -/
structure Logs (d : Deployment) (noted : List Failure) : Prop where
  room : 0 < d.errorLogCapacity
  suffix : d.errorLog <:+ noted
  length : d.errorLog.length = min d.errorLogCapacity noted.length

/-! ### What keeps the log -/

theorem Logs.of_eq (h : d.Logs noted) (hlog : d'.errorLog = d.errorLog)
    (hcapacity : d'.errorLogCapacity = d.errorLogCapacity) : d'.Logs noted :=
  ⟨hcapacity ▸ h.room, hlog ▸ h.suffix, by rw [hlog, hcapacity, h.length]⟩

theorem logs_new (id : String) (request : Request) (capacity now : Nat) :
    (new id request capacity now).Logs [] :=
  ⟨Nat.le_max_right .., List.nil_suffix, (Nat.min_zero _).symm⟩

theorem Logs.update (h : d.Logs noted) (request : Request) : (d.update request).Logs noted :=
  h.of_eq rfl rfl

theorem Logs.begun (h : d.Logs noted) : d.begun.Logs noted := by
  obtain ⟨state, heq⟩ := d.begun_eq
  rw [heq]
  exact h.of_eq rfl rfl

theorem Logs.absorb (h : work.Logs noted) (d : Deployment) : (d.absorb work).Logs noted := by
  obtain ⟨_, _, _, _, heq⟩ := absorb_eq d work
  rw [heq]
  exact h.of_eq rfl rfl

/-- A failure that is noted comes last, and only the oldest ones go. -/
theorem Logs.recordFailure (h : d.Logs noted) (x : Failure) :
    (d.recordFailure x).Logs (noted ++ [x]) := by
  obtain ⟨before, hbefore⟩ := (List.drop_suffix _ _).trans h.suffix
  have hroom := h.room
  have hlength := h.length
  refine ⟨h.room, ⟨before, ?_⟩, ?_⟩
  · rw [Deployment.recordFailure, ← List.append_assoc, hbefore]
  · simp only [Deployment.recordFailure, List.length_append, List.length_drop,
      List.length_singleton]
    omega

theorem Logs.recordFailures (h : d.Logs noted) (failures : List Failure) :
    (d.recordFailures failures).Logs (noted ++ failures) := by
  induction failures using List.reverseRecOn with
  | nil => rwa [List.append_nil]
  | append_singleton failures x ih =>
    rw [recordFailures_concat, ← List.append_assoc]
    exact ih.recordFailure x

/-! ### The last failures of the nodes -/

/-- Of each node the last failure in the log is reported. -/
theorem lastErrors_get? (d : Deployment) (node : String) :
    d.lastErrors.get? node = (d.errorLog.filter (·.nodeId == node)).getLast? := by
  rw [lastErrors]
  induction d.errorLog using List.reverseRecOn with
  | nil => exact SortedMap.get?_empty node
  | append_singleton log x ih =>
    have hlast : SortedMap.ofList ((log ++ [x]).map fun f => (f.nodeId, f)) =
        (SortedMap.ofList (log.map fun f => (f.nodeId, f))).insert x.nodeId x := by
      rw [List.map_append]
      exact SortedMap.overlay_append ..
    rw [hlast, List.filter_append]
    by_cases hx : x.nodeId = node
    · subst hx
      rw [SortedMap.get?_insert_self]
      simp
    · rw [SortedMap.get?_insert_of_ne (Ne.symm hx), ih]
      simp [hx]

/-- The last failure of a node at the end of a history is its last of all. -/
theorem getLast?_filter_of_suffix {log : List Failure} (h : log <:+ noted)
    (hnode : ∃ y ∈ log, y.nodeId = node) :
    (log.filter (·.nodeId == node)).getLast? = (noted.filter (·.nodeId == node)).getLast? := by
  obtain ⟨before, rfl⟩ := h
  obtain ⟨y, hy, rfl⟩ := hnode
  have hne : log.filter (·.nodeId == y.nodeId) ≠ [] :=
    List.ne_nil_of_mem (List.mem_filter.2 ⟨hy, beq_self_eq_true _⟩)
  rw [List.filter_append, List.getLast?_append_of_ne_nil _ hne]

theorem exists_of_lastErrors (h : d.lastErrors.get? node = some x) :
    x ∈ d.errorLog ∧ x.nodeId = node := by
  rw [lastErrors_get?] at h
  obtain ⟨hx, hnode⟩ := List.mem_filter.1 (List.mem_of_getLast? h)
  exact ⟨hx, beq_iff_eq.1 hnode⟩

/-- A failure in a list with enough room at the end of the history is in the log. -/
theorem Logs.suffix_of_length_le {before last : List Failure} (h : d.Logs (before ++ last))
    (hroom : last.length ≤ d.errorLogCapacity) : last <:+ d.errorLog := by
  refine List.suffix_of_suffix_length_le (List.suffix_append ..) h.suffix ?_
  rw [h.length, List.length_append]
  omega

/-! ### What a record remembers -/

/-- What the record says of the failures that were noted, pass by pass, with room for a number of
them. -/
structure Remembers (d : Deployment) (capacity : Nat) (passes : List (List Failure)) : Prop where
  /-- The log is the end of what was noted ... -/
  suffix : d.errorLog <:+ passes.flatten
  /-- ... and as much of it as there is room for. -/
  length : d.errorLog.length = min (max capacity 1) passes.flatten.length
  /-- The nodes in the log are reported and no others, each with its last failure of all. -/
  reported : ∀ node x, d.lastErrors.get? node = some x ↔ (∃ y ∈ d.errorLog, y.nodeId = node) ∧
    (passes.flatten.filter (·.nodeId == node)).getLast? = some x
  /-- If there is room for the failures of the last pass, each node that failed in it is reported
  with its last failure in the pass. -/
  complete : ∀ before last, passes = before ++ [last] → last.length ≤ max capacity 1 →
    ∀ x ∈ last, ∃ y ∈ last, y.nodeId = x.nodeId ∧ d.lastErrors.get? x.nodeId = some y ∧
      (last.filter (·.nodeId == x.nodeId)).getLast? = some y

theorem Logs.remembers {capacity : Nat} {passes : List (List Failure)}
    (h : d.Logs passes.flatten) (hcapacity : d.errorLogCapacity = max capacity 1) :
    d.Remembers capacity passes := by
  constructor
  case suffix => exact h.suffix
  case length => rw [h.length, hcapacity]
  case reported =>
    intro node x
    constructor
    · intro hx
      have hnode : ∃ y ∈ d.errorLog, y.nodeId = node := ⟨x, exists_of_lastErrors hx⟩
      rw [lastErrors_get?, getLast?_filter_of_suffix h.suffix hnode] at hx
      exact ⟨hnode, hx⟩
    · rintro ⟨hnode, hx⟩
      rwa [lastErrors_get?, getLast?_filter_of_suffix h.suffix hnode]
  case complete =>
    rintro before last rfl hroom x hx
    rw [List.flatten_append, List.flatten_singleton] at h
    have hlast := h.suffix_of_length_le (hcapacity ▸ hroom)
    have hsame := getLast?_filter_of_suffix hlast ⟨x, hx, rfl⟩
    have hne : last.filter (·.nodeId == x.nodeId) ≠ [] :=
      List.ne_nil_of_mem (List.mem_filter.2 ⟨hx, beq_self_eq_true _⟩)
    have hy := List.getLast?_eq_some_getLast hne
    obtain ⟨hmem, hnode⟩ := List.mem_filter.1 (List.mem_of_getLast? hy)
    exact ⟨_, hmem, beq_iff_eq.1 hnode, by rw [lastErrors_get?, ← hsame, hy], hy⟩

end Deployment

namespace Pass

variable {f : Fleet} {d work : Deployment} {p : Pass} {selector : Placement.Selector}
  {noted : List Failure}

/-! ### The log along a pass -/

theorem logs_of_start (h : start f d = .planned p selector) (hd : d.Logs noted) :
    p.work.Logs noted := by
  obtain ⟨-, hlog, hcapacity, -⟩ := opening_of_start h
  exact hd.of_eq hlog hcapacity

theorem logs_of_failed {e : Region.Error} (h : start f d = .failed work e) (hd : d.Logs noted) :
    work.Logs noted := by
  rw [start_eq] at h
  split at h
  · cases h
  · split at h
    · cases h
      obtain ⟨state, heq⟩ := opened_eq f d
      rw [heq]
      exact hd.of_eq rfl rfl
    · cases h

theorem logs_proceed (f : Fleet) (hp : p.work.Logs noted) : (p.proceed f).work.Logs noted := by
  cases h : p.proceed f with
  | dispatching p' =>
    obtain ⟨-, rfl⟩ := proceed_dispatching h
    exact hp
  | finished work report =>
    obtain ⟨target, hfinish⟩ := proceed_finished h
    obtain ⟨state, degraded, rfl⟩ := finish_eq hfinish
    exact hp.of_eq rfl rfl

theorem logs_launch (f : Fleet) (hp : p.work.Logs noted) : (p.launch f).work.Logs noted := by
  unfold launch
  split
  · exact logs_proceed f hp
  · exact hp

/-- The failures of a plan are noted in its order. -/
theorem logs_conclude (f : Fleet) (outs : List Outcome) (hp : p.work.Logs noted) :
    (p.conclude f outs).work.Logs (noted ++ outs.filterMap (Outcome.noted? f.wall)) := by
  obtain ⟨hlog, hcapacity⟩ := errorLog_foldAll f.wall outs p
  refine logs_proceed f ((hp.recordFailures _).of_eq hlog ?_)
  rw [hcapacity, Deployment.errorLogCapacity_recordFailures]

end Pass

end FleetControl
