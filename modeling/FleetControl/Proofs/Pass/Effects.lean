import FleetControl.Proofs.Pass.Ledger
import FleetControl.Proofs.Pass.Likeness

/-!
# What outcomes make of a record

An outcome adds an instance to the record of a pass, takes one away, or notes a failure, or does none
of these (`Pass.fold_work`). What a whole plan does to the record is put together from that
(`Pass.foldAll_work`): failures are noted in the order of the plan, and if ids are distinct, what is
left are the instances that are not taken away, and behind them the ones added.

Without handles and clocks these effects depend on the bare outcomes alone (`Outcome.SameEffects`).
-/

namespace FleetControl

namespace Outcome

/-- The instance that the outcome adds to a record. -/
def added? (d : Deployment) (now : Nat) (o : Outcome) : Option Instance :=
  match o.dispatch, o.result with
  | .create node _ seq, .ok handle =>
    some ⟨d.instanceId seq, node.id, handle, d.specFingerprint, now, seq⟩
  | _, _ => none

/-- The instance that the outcome takes away. -/
def removed? (o : Outcome) : Option Instance :=
  match o.dispatch, o.result with
  | .remove target _, .ok _ => some target
  | _, _ => none

/-- The failure that is noted of the outcome. -/
def noted? (now : Nat) (o : Outcome) : Option Failure :=
  match o.result with
  | .ok _ => none
  | .error .cancelled => none
  | .error e => some ⟨o.dispatch.nodeId, o.dispatch.kind, o.dispatch.instanceId, e.message, now⟩

end Outcome

/-- The record when an outcome is taken. -/
def Deployment.taking (now : Nat) (d : Deployment) (o : Outcome) : Deployment :=
  { d.recordFailures (o.noted? now).toList with
    instances := d.instances.filter (fun i => o.removed?.all fun target => i.id != target.id) ++
      (o.added? d now).toList }

namespace Pass

variable {p : Pass} {outs outs' : List Outcome} {now now' : Nat} {d : Deployment} {r : Report}

/-! ### One outcome -/

theorem fold_work (now : Nat) (d : Deployment) (r : Report) (o : Outcome) :
    (fold now (d, r) o).1 = d.taking now o := by
  obtain ⟨x, result⟩ := o
  cases result with
  | ok handle =>
    cases x with
    | create node spec seq =>
      simp [fold_create_ok, Deployment.taking, Outcome.noted?, Outcome.removed?, Outcome.added?,
        Deployment.recordFailures]
    | remove target stale =>
      simp [fold_remove_ok, Deployment.taking, Outcome.noted?, Outcome.removed?, Outcome.added?,
        Deployment.recordFailures]
  | error e =>
    cases e with
    | cancelled =>
      cases x <;> simp [fold, Deployment.taking, Outcome.noted?, Outcome.removed?, Outcome.added?,
        Deployment.recordFailures]
    | _ =>
      rw [fold_failed now d r x (by simp)]
      cases x <;> simp [Deployment.taking, Outcome.noted?, Outcome.removed?, Outcome.added?,
        Deployment.recordFailures, Deployment.recordFailure]

/-! ### All outcomes of a plan -/

/-- **The record takes the outcomes one after the other.** -/
theorem foldAll_work (now : Nat) (outs : List Outcome) (p : Pass) :
    (p.foldAll now outs).work = outs.foldl (Deployment.taking now) p.work := by
  induction outs generalizing p with
  | nil => rfl
  | cons o rest ih =>
    have htake : (p.take now o).work = p.work.taking now o := fold_work ..
    rw [foldAll_cons, ih, htake, List.foldl_cons]

/-- **Failures are noted in the order of the plan.** -/
theorem errorLog_foldAll (now : Nat) (outs : List Outcome) (p : Pass) :
    (p.foldAll now outs).work.errorLog =
        (p.work.recordFailures (outs.filterMap (Outcome.noted? now))).errorLog ∧
      (p.foldAll now outs).work.errorLogCapacity = p.work.errorLogCapacity := by
  rw [foldAll_work]
  induction outs using List.reverseRecOn with
  | nil => exact ⟨rfl, rfl⟩
  | append_singleton before o ih =>
    rw [List.foldl_append, List.foldl_cons, List.foldl_nil, Deployment.taking,
      List.filterMap_append]
    refine ⟨?_, (Deployment.errorLogCapacity_recordFailures ..).trans ih.2⟩
    have hlast : [o].filterMap (Outcome.noted? now) = (o.noted? now).toList := by
      rw [List.filterMap_cons]
      cases o.noted? now <;> rfl
    rw [hlast, Deployment.recordFailures_append]
    refine Deployment.errorLog_recordFailures ih.1 ?_ _
    exact ih.2.trans (Deployment.errorLogCapacity_recordFailures ..).symm

theorem added?_congr {work : Deployment} (h : work.CopyOf d) (now : Nat) :
    Outcome.added? work now = Outcome.added? d now := by
  funext o
  unfold Outcome.added?
  rw [h.instanceId, h.specFingerprint]

theorem removed_subset (outs : List Outcome) :
    outs.filterMap Outcome.removed? ⊆ (outs.map (·.dispatch)).filterMap Dispatch.target? := by
  intro target ht
  obtain ⟨⟨x, result⟩, ho, hremoved⟩ := List.mem_filterMap.1 ht
  refine List.mem_filterMap.2 ⟨x, List.mem_map_of_mem ho, ?_⟩
  cases x with
  | create node spec seq => cases hremoved
  | remove target' stale =>
    cases result with
    | ok handle => exact hremoved
    | error e => cases hremoved

/-- **What a plan leaves of the instances**: those it does not take away, and those it adds. -/
theorem instances_foldAll (h : p.Sound) (hplan : p.plan = outs.map (·.dispatch)) (now : Nat) :
    (p.foldAll now outs).work.instances =
      p.work.instances.filter (· ∉ outs.filterMap Outcome.removed?) ++
        outs.filterMap (Outcome.added? p.work now) := by
  induction outs generalizing p with
  | nil => simp [foldAll]
  | cons o rest ih =>
    have hq := h.take now hplan
    have hrest : (p.take now o).plan = rest.map (·.dispatch) := by
      rw [take_plan, hplan]
      rfl
    have htargets : rest.filterMap Outcome.removed? ⊆ p.work.instances := by
      intro target ht
      refine h.targets_subset ?_
      rw [targets, hplan, List.map_cons]
      exact ((List.sublist_cons_self ..).filterMap _).subset (removed_subset rest ht)
    rw [foldAll_cons, ih hq hrest, added?_congr (take_copyOf now o p)]
    obtain ⟨x, result⟩ := o
    cases result with
    | error e =>
      -- nothing comes or goes
      obtain ⟨errorLog, he⟩ := fold_error now p.work p.report x e
      have hremoved : Outcome.removed? ⟨x, .error e⟩ = none := by cases x <;> rfl
      have hadded : Outcome.added? p.work now ⟨x, .error e⟩ = none := by cases x <;> rfl
      rw [take, he, List.filterMap_cons_none hremoved, List.filterMap_cons_none hadded]
    | ok handle =>
      cases x with
      | create node spec seq =>
        obtain ⟨i, hid, hadded⟩ : ∃ i : Instance, i.id = p.work.instanceId seq ∧
            Outcome.added? p.work now ⟨.create node spec seq, .ok handle⟩ = some i := ⟨_, rfl, rfl⟩
        have hremoved : Outcome.removed? ⟨.create node spec seq, .ok handle⟩ = none := rfl
        have hinst : (p.take now ⟨.create node spec seq, .ok handle⟩).work.instances =
            p.work.instances ++ [i] := by
          cases hadded
          rfl
        -- the new instance has an id of its own, so nothing that follows takes it away
        have hnew : i ∉ rest.filterMap Outcome.removed? := by
          intro hmem
          have hids := h.nodup
          rw [ids, hplan, List.map_cons, List.filterMap_cons_some (Dispatch.seq?_create ..),
            List.map_cons, List.nodup_append] at hids
          exact hids.2.2 _ (List.mem_map_of_mem (htargets hmem)) _ List.mem_cons_self hid
        rw [hinst, List.filterMap_cons_none hremoved, List.filterMap_cons_some hadded,
          List.filter_append, List.filter_singleton, decide_eq_true hnew, cond_true,
          List.append_assoc, List.singleton_append]
      | remove target stale =>
        have hadded : Outcome.added? p.work now ⟨.remove target stale, .ok handle⟩ = none := rfl
        have hremoved : Outcome.removed? ⟨.remove target stale, .ok handle⟩ = some target := rfl
        have hinst : (p.take now ⟨.remove target stale, .ok handle⟩).work.instances =
            p.work.instances.filter (·.id != target.id) := rfl
        have htarget : target ∈ p.work.instances := by
          refine h.targets_subset ?_
          rw [targets, hplan]
          exact List.mem_cons_self
        rw [hinst, List.filterMap_cons_none hadded, List.filterMap_cons_some hremoved,
          h.filter_id_ne htarget, (List.Nodup.of_map _ h.distinctIds.nodup).erase_eq_filter,
          Lists.filter_ne_eq, Lists.filter_notMem_append, List.singleton_append]

end Pass

namespace Outcome

variable {d : Deployment} {now now' : Nat} {outs outs' : List Outcome} {o : Outcome}

/-! ### Effects without handles and clocks -/

theorem removed?_bare (o : Outcome) : o.bare.removed? = o.removed? := by
  obtain ⟨x, result⟩ := o
  cases x <;> cases result <;> rfl

theorem added?_bare (d : Deployment) (now : Nat) (o : Outcome) :
    o.bare.added? d 0 = (o.added? d now).map Instance.bare := by
  obtain ⟨x, result⟩ := o
  cases x <;> cases result <;> rfl

theorem noted?_bare (now : Nat) (o : Outcome) :
    o.bare.noted? 0 = (o.noted? now).map Failure.bare := by
  obtain ⟨x, result⟩ := o
  cases result with
  | ok handle => rfl
  | error e => cases e <;> rfl

/-- The outcomes add, take away and note the same, but for handles and clocks. -/
structure SameEffects (d : Deployment) (now now' : Nat) (outs outs' : List Outcome) : Prop where
  added : (outs.filterMap (added? d now)).map Instance.bare =
    (outs'.filterMap (added? d now')).map Instance.bare
  removed : outs.filterMap removed? = outs'.filterMap removed?
  noted : (outs.filterMap (noted? now)).map Failure.bare =
    (outs'.filterMap (noted? now')).map Failure.bare

/-- **Bare outcomes decide of the effects.** -/
theorem sameEffects_of_bare (h : outs.map bare = outs'.map bare) (d : Deployment) (now now' : Nat) :
    SameEffects d now now' outs outs' := by
  have hadded (outs : List Outcome) (now : Nat) : (outs.filterMap (added? d now)).map Instance.bare =
      (outs.map bare).filterMap (added? d 0) := by
    rw [List.map_filterMap, List.filterMap_map]
    exact List.filterMap_congr fun o _ => (added?_bare d now o).symm
  have hremoved (outs : List Outcome) : outs.filterMap removed? =
      (outs.map bare).filterMap removed? := by
    rw [List.filterMap_map]
    exact List.filterMap_congr fun o _ => (removed?_bare o).symm
  have hnoted (outs : List Outcome) (now : Nat) : (outs.filterMap (noted? now)).map Failure.bare =
      (outs.map bare).filterMap (noted? 0) := by
    rw [List.map_filterMap, List.filterMap_map]
    exact List.filterMap_congr fun o _ => (noted?_bare now o).symm
  exact ⟨by rw [hadded, hadded, h], by rw [hremoved, h, ← hremoved],
    by rw [hnoted, hnoted, h]⟩

end Outcome

end FleetControl
