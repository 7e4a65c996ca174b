import FleetControl.Proofs.Pass.Success

/-!
# The drain of a record

A drain removes every instance of a record, and what is left are the instances of which the removal
came to an error (`Drained`). The ids of the instances tell them apart, so each removal takes one
instance away (`Pass.instances_foldAll_removals`).
-/

namespace FleetControl

/-- What is left of a record when removals of all its instances, none of them cancelled, came to the
results. -/
structure Drained (d : Deployment) (results : List (Except DispatchError String))
    (final : Deployment) : Prop where
  length : results.length = d.instances.length
  called : ∀ result ∈ results, result ≠ .error .cancelled
  instances : final.instances =
    ((d.instances.zip results).filter fun x => !x.2.isOk).map (·.1)
  state : final.state = .converged ↔ final.instances = []

namespace Pass

/-- Removals leave the instances whose removal came to an error, in their order. -/
theorem instances_foldAll_removals {p : Pass} (now : Nat) {kept rest : List Instance} {stale : Bool}
    {outcomes : List Outcome} (hinst : p.work.instances = kept ++ rest)
    (hnodup : ((kept ++ rest).map (·.id)).Nodup)
    (hplan : outcomes.map (·.dispatch) = rest.map (Dispatch.remove · stale)) :
    (p.foldAll now outcomes).work.instances = kept ++
      ((rest.zip (outcomes.map (·.result))).filter fun x => !x.2.isOk).map (·.1) := by
  induction outcomes generalizing p kept rest with
  | nil =>
    cases rest with
    | nil => exact hinst
    | cons target rest => cases hplan
  | cons o outcomes ih =>
    cases rest with
    | nil => cases hplan
    | cons target rest =>
      obtain ⟨dispatch, result⟩ := o
      obtain ⟨rfl, htail⟩ := List.cons.inj hplan
      rw [foldAll_cons]
      cases result with
      | ok handle =>
        rw [List.map_append, List.map_cons, List.nodup_middle, List.nodup_cons,
          ← List.map_append] at hnodup
        -- no other instance has the id of the removed one
        have htake : (p.take now ⟨.remove target stale, .ok handle⟩).work.instances =
            kept ++ rest := by
          have hrest : (kept ++ rest).filter (·.id != target.id) = kept ++ rest := by
            refine List.filter_eq_self.2 fun x hx => ?_
            rw [bne_iff_ne]
            exact fun hid => hnodup.1 (hid ▸ List.mem_map_of_mem hx)
          rw [List.filter_append] at hrest
          rw [take, fold_remove_ok, hinst, List.filter_append, List.filter_cons_of_neg (by simp),
            hrest]
        rw [ih htake hnodup.2 htail]
        rfl
      | error e =>
        have htake : (p.take now ⟨.remove target stale, .error e⟩).work.instances =
            (kept ++ [target]) ++ rest := by
          obtain ⟨errorLog, herror⟩ := fold_error now p.work p.report (.remove target stale) e
          rw [take, herror, hinst, List.append_assoc]
          rfl
        rw [ih htake (by rwa [List.append_assoc]) htail, List.append_assoc]
        rfl

/-- A drain has converged if no instance is left. -/
theorem finish_drained {now : Nat} {p : Pass} {work : Deployment} {report : Report}
    (h : p.finish now 0 = .finished work report) :
    work.instances = p.work.instances ∧ (work.state = .converged ↔ work.instances = []) := by
  have hinst : work.instances = p.work.instances := by
    obtain ⟨state, degraded, rfl⟩ := finish_eq h
    rfl
  have hlength := p.work.length_matched_add_stale
  refine ⟨hinst, ?_⟩
  rw [finish_state h, hinst, ← List.length_eq_zero_iff, ← List.length_eq_zero_iff]
  omega

variable {f : Fleet} {now : Nat} {d : Deployment}

/-- A drain makes its calls if there is an instance. -/
theorem launch_startDrain_dispatching {p : Pass}
    (h : (startDrain now d).launch f = .dispatching p) :
    d.instances ≠ [] ∧ p = startDrain now d := by
  unfold launch at h
  split at h
  · simp [proceed, startDrain, finish] at h
  · next hplan =>
    cases h
    exact ⟨fun hnone => hplan (by rw [startDrain, hnone]; rfl), rfl⟩

/-- What a drain leaves that has no calls to make. -/
theorem drained_of_launch {work : Deployment} {report : Report}
    (h : (startDrain now d).launch f = .finished work report) :
    d.instances = [] ∧ Drained d [] work := by
  unfold launch at h
  split at h
  · next hplan =>
    have hempty : d.instances = [] := List.map_eq_nil_iff.1 (List.isEmpty_iff.1 hplan)
    have hend : (startDrain now d).finish f.wall 0 = .finished work report := h
    obtain ⟨hwork, hstate⟩ := finish_drained hend
    refine ⟨hempty, by rw [hempty]; rfl, ?_, ?_, hstate⟩
    · exact fun result hresult => absurd hresult List.not_mem_nil
    · rw [hwork, startDrain, hempty]
      rfl
  · cases h

/-- What a drain leaves, when its calls are over. -/
theorem drained_of_conclude {outcomes : List Outcome} {work : Deployment} {report : Report}
    (hd : (d.instances.map (·.id)).Nodup)
    (hplan : outcomes.map (·.dispatch) = (startDrain now d).plan)
    (hcalled : ∀ o ∈ outcomes, o.result ≠ .error .cancelled)
    (h : (startDrain now d).conclude f outcomes = .finished work report) :
    Drained d (outcomes.map (·.result)) work := by
  have hend : ((startDrain now d).foldAll f.wall outcomes).finish f.wall 0 =
      .finished work report := h
  obtain ⟨hwork, hstate⟩ := finish_drained hend
  have hlength := congrArg List.length hplan
  rw [List.length_map, startDrain, List.length_map] at hlength
  refine ⟨by rw [List.length_map, hlength], ?_, ?_, hstate⟩
  · intro result hresult
    obtain ⟨o, ho, rfl⟩ := List.mem_map.1 hresult
    exact hcalled o ho
  · rw [hwork]
    have hinst : (startDrain now d).work.instances = [] ++ d.instances := rfl
    exact instances_foldAll_removals f.wall hinst hd hplan

end Pass

end FleetControl
