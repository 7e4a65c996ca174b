import FleetControl.Proofs.Pass.Course

/-!
# A pass keeps what serves

A pass first meets the scale and then retires stale instances as far as they are replaced, whatever
becomes of its dispatches. At every point of it, with `kept` the record without lost instances:

* `Course.created_le` : no more creations were planned than matched instances were missing;
* `Course.supplyWhere_le` : the instances of a fingerprint, with those still planned, grow no more on
  any nodes;
* `Course.serving` : the matched instances stay between their number and the scale, the total stays
  above the scale or the total there was, and no stale instance is new;
* `Rollout.safe` : hence a run of passes and updates under one scale, with nodes that stay, never
  has fewer instances than the scale or than there were at first.

The bounds from above are kept by every fold as they stand. Those from below need the ids to be
distinct (`Pass.Sound`), for a removal takes all instances with an id.
-/

namespace FleetControl

namespace Dispatch

/-- The dispatch removes an instance that runs what `d` wants. -/
def removesMatched (d : Deployment) : Dispatch → Bool
  | .create .. => false
  | .remove target _ => d.isMatched target

@[simp] theorem removesMatched_create (d : Deployment) (node : Node) (spec : ContainerSpec)
    (seq : Nat) : (create node spec seq).removesMatched d = false := rfl

@[simp] theorem removesMatched_remove (d : Deployment) (target : Instance) (stale : Bool) :
    (remove target stale).removesMatched d = d.isMatched target := rfl

end Dispatch

namespace Pass

/-- How many creations are planned. -/
def creates (p : Pass) : Nat := p.plan.countP Dispatch.isCreate

/-- How many removals of matched instances are planned. -/
def matchedRemovals (p : Pass) : Nat := p.plan.countP (Dispatch.removesMatched p.work)

theorem countP_isCreate_map_remove (retired : List Instance) (stale : Bool) :
    (retired.map (Dispatch.remove · stale)).countP Dispatch.isCreate = 0 := by
  rw [List.countP_eq_zero]
  intro x hx
  obtain ⟨i, -, rfl⟩ := List.mem_map.1 hx
  simp

theorem countP_isCreate_creations (spec : ContainerSpec) (seq : Nat) (nodes : List Node) :
    (creations spec seq nodes).countP Dispatch.isCreate = nodes.length := by
  induction nodes generalizing seq with
  | nil => rfl
  | cons node rest ih => rw [creations, List.countP_cons_of_pos rfl, ih, List.length_cons]

theorem countP_creations_eq_zero {q : Dispatch → Bool} {spec : ContainerSpec} {seq : Nat}
    {nodes : List Node} (hq : ∀ node seq, q (.create node spec seq) = false) :
    (creations spec seq nodes).countP q = 0 := by
  induction nodes generalizing seq with
  | nil => rfl
  | cons node rest ih => rw [creations, List.countP_cons_of_neg (by simp [hq]), ih]

/-! ### Bounds from above -/

/-- A pass begins with at most as many planned creations as matched instances are missing. -/
theorem creates_le_of_start {f : Fleet} {d : Deployment} {p : Pass} {selector : Placement.Selector}
    (h : start f d = .planned p selector) :
    p.creates ≤ d.scale - (dropLost f.registry d).matched.length := by
  obtain ⟨-, -, -, hplan, -⟩ := start_planned h
  cases hplan with
  | remove victims _ _ hplan _ =>
    rw [creates, hplan, countP_isCreate_map_remove]
    exact Nat.zero_le _
  | create election targets _ _ ht hplan _ =>
    rw [creates, hplan, countP_isCreate_creations, ht, Placement.Selector.length_selectTargets]
    exact Nat.min_le_left ..

theorem mem_retirees {selector : Placement.Selector} {d : Deployment} {i : Instance}
    (h : i ∈ retirees selector d) : i ∈ d.instances ∧ d.isMatched i = false := by
  simpa [Deployment.stale] using (retirees_subperm selector d).subset h

/-- Dispatches of a kind that retires no stale instance are planned at the beginning only. -/
theorem Course.countP_add_countP_le {p₀ p : Pass} {outs : List Outcome} (h : Course p₀ p outs)
    {q : Dispatch → Bool}
    (hq : ∀ i, p₀.work.isMatched i = false → q (.remove i true) = false) :
    outs.countP (q ·.dispatch) + p.plan.countP q ≤ p₀.plan.countP q := by
  induction h with
  | opened => simp
  | folded now _ hplan ih =>
    rw [hplan, List.countP_cons] at ih
    rw [List.countP_append, List.countP_singleton, take_plan, hplan, List.tail_cons]
    omega
  | @proceeded p _ _ f hcourse _ hnext ih =>
    obtain ⟨-, rfl⟩ := proceed_dispatching hnext
    have hzero : ((retirees f.selector p.work).map (Dispatch.remove · true)).countP q = 0 := by
      rw [List.countP_eq_zero]
      intro x hx
      obtain ⟨i, hi, rfl⟩ := List.mem_map.1 hx
      simp [hq i (hcourse.copyOf.isMatched ▸ (mem_retirees hi).2)]
    dsimp only
    omega

/-- **A pass creates no more than is missing.** -/
theorem Course.created_le {f : Fleet} {d : Deployment} {p₀ p : Pass}
    {selector : Placement.Selector} {outs : List Outcome}
    (h₀ : start f d = .planned p₀ selector) (h : Course p₀ p outs) :
    outs.countP (·.dispatch.isCreate) + p.creates ≤
      d.scale - (dropLost f.registry d).matched.length :=
  Nat.le_trans (h.countP_add_countP_le fun _ _ => rfl) (creates_le_of_start h₀)

/-- How many instances there are and may come with a fingerprint. -/
def supply (fingerprint : String) (p : Pass) : Nat :=
  p.work.instances.countP (·.specFingerprint == fingerprint) +
    if p.work.specFingerprint = fingerprint then p.creates else 0

/-- How many instances there are and may come with a fingerprint on certain nodes. -/
def supplyWhere (on : String → Bool) (fingerprint : String) (p : Pass) : Nat :=
  p.work.instances.countP (fun j => on j.nodeId && j.specFingerprint == fingerprint) +
    if p.work.specFingerprint = fingerprint then p.plan.countP fun x => on x.nodeId && x.isCreate
    else 0

theorem supplyWhere_true (fingerprint : String) (p : Pass) :
    p.supplyWhere (fun _ => true) fingerprint = p.supply fingerprint := by
  simp only [supplyWhere, supply, creates, Bool.true_and]

theorem countP_create_map_remove (on : String → Bool) (targets : List Instance) (stale : Bool) :
    (targets.map (Dispatch.remove · stale)).countP (fun x => on x.nodeId && x.isCreate) = 0 := by
  simp [List.countP_map, Function.comp_def]

/-- Nowhere does the supply of a fingerprint grow in a pass. -/
theorem Course.supplyWhere_le {p₀ p : Pass} {outs : List Outcome} (h : Course p₀ p outs)
    (on : String → Bool) (fingerprint : String) :
    p.supplyWhere on fingerprint ≤ p₀.supplyWhere on fingerprint := by
  induction h with
  | opened => exact Nat.le_refl _
  | @folded p _ o rest now _ hplan ih =>
    refine Nat.le_trans ?_ ih
    rw [supplyWhere, supplyWhere, (take_copyOf now o p).specFingerprint, take_plan, hplan,
      List.tail_cons, List.countP_cons]
    obtain ⟨node, spec, seq, handle, rfl, hinst⟩ | ⟨target, _, _, rfl, hinst⟩ | ⟨-, hinst⟩ :=
      take_instances now o p
    · -- an instance that was to come is there
      rw [hinst, List.countP_append, List.countP_singleton]
      by_cases hfp : p.work.specFingerprint = fingerprint
      · simp only [hfp, beq_self_eq_true, if_true, Bool.and_true, Dispatch.isCreate_create,
          Dispatch.nodeId]
        omega
      · simp [hfp]
    · have hle : (p.work.instances.filter (·.id != target.id)).countP
          (fun j => on j.nodeId && j.specFingerprint == fingerprint) ≤
          p.work.instances.countP fun j => on j.nodeId && j.specFingerprint == fingerprint :=
        List.filter_sublist.countP_le
      rw [hinst]
      split_ifs <;> omega
    · rw [hinst]
      split_ifs <;> omega
  | @proceeded p _ _ f _ hplan hnext ih =>
    obtain ⟨-, rfl⟩ := proceed_dispatching hnext
    refine Nat.le_trans ?_ ih
    rw [supplyWhere, supplyWhere, countP_create_map_remove, ite_self]
    exact Nat.le_add_right ..

/-- The supply of no fingerprint grows in a pass. -/
theorem Course.supply_le {p₀ p : Pass} {outs : List Outcome} (h : Course p₀ p outs)
    (fingerprint : String) : p.supply fingerprint ≤ p₀.supply fingerprint := by
  rw [← supplyWhere_true, ← supplyWhere_true]
  exact h.supplyWhere_le ..

theorem length_matched_eq (d : Deployment) :
    d.matched.length = d.instances.countP (·.specFingerprint == d.specFingerprint) :=
  d.length_matched

theorem supply_of_start {f : Fleet} {d : Deployment} {p : Pass} {selector : Placement.Selector}
    (h : start f d = .planned p selector) (fingerprint : String) :
    p.supply fingerprint ≤
      (dropLost f.registry d).instances.countP (·.specFingerprint == fingerprint) +
      if d.specFingerprint = fingerprint then
        d.scale - (dropLost f.registry d).matched.length else 0 := by
  obtain ⟨hcopy, hinst, -⟩ := start_planned h
  have hle := creates_le_of_start h
  rw [supply, hinst, hcopy.specFingerprint]
  split_ifs <;> omega

/-- No matched instance comes beyond the scale or those there were. -/
theorem Course.matched_le {f : Fleet} {d : Deployment} {p₀ p : Pass}
    {selector : Placement.Selector} {outs : List Outcome}
    (h₀ : start f d = .planned p₀ selector) (h : Course p₀ p outs) :
    p.work.matched.length ≤ max (dropLost f.registry d).matched.length d.scale := by
  have hfp : p.work.specFingerprint = d.specFingerprint :=
    h.copyOf.specFingerprint.trans (start_planned h₀).1.specFingerprint
  have hkept : (dropLost f.registry d).matched.length =
      (dropLost f.registry d).instances.countP (·.specFingerprint == d.specFingerprint) :=
    length_matched_eq _
  have hle := Nat.le_trans (h.supply_le d.specFingerprint) (supply_of_start h₀ _)
  rw [supply, ← hfp, ← length_matched_eq, hfp, if_pos rfl, if_pos rfl, ← hkept] at hle
  omega

/-! ### Bounds from below -/

/-- What a pass on a record still has, and may take away. -/
structure Serving (least floor : Nat) (stale : List Instance) (p : Pass) : Prop where
  least : least + p.matchedRemovals ≤ p.work.matched.length
  floor : floor + p.plan.countP (!·.isCreate) ≤ p.work.instances.length
  stale : p.work.stale.Sublist stale

theorem Serving.take {least floor : Nat} {stale : List Instance} {p : Pass}
    (h : p.Serving least floor stale) (hs : p.Sound) (now : Nat) {o : Outcome}
    {rest : List Dispatch} (hplan : p.plan = o.dispatch :: rest) :
    (p.take now o).Serving least floor stale := by
  obtain ⟨hleast, hfloor, hstale⟩ := h
  have hcopy := take_copyOf now o p
  have hremoves : Dispatch.removesMatched (p.take now o).work = Dispatch.removesMatched p.work := by
    funext x
    cases x <;> simp [hcopy.isMatched]
  simp only [matchedRemovals, hplan, List.countP_cons, Deployment.matched, Deployment.stale,
    ← List.countP_eq_length_filter] at hleast hfloor hstale
  suffices hinst : least + rest.countP (Dispatch.removesMatched p.work) ≤
        (p.take now o).work.instances.countP p.work.isMatched ∧
      floor + rest.countP (!·.isCreate) ≤ (p.take now o).work.instances.length ∧
      ((p.take now o).work.instances.filter fun i => !p.work.isMatched i).Sublist stale by
    constructor <;> simpa only [matchedRemovals, take_plan, hplan, List.tail_cons, hremoves,
      Deployment.matched, Deployment.stale, hcopy.isMatched, ← List.countP_eq_length_filter]
      using by first | exact hinst.1 | exact hinst.2.1 | exact hinst.2.2
  obtain ⟨node, spec, seq, handle, rfl, hinst⟩ | ⟨target, _, _, rfl, hinst⟩ | ⟨-, hinst⟩ :=
    take_instances now o p
  · -- a created instance is matched
    rw [hinst, List.countP_append, List.length_append, List.filter_append]
    refine ⟨by simp at hleast; omega, by simp at hfloor ⊢; omega, ?_⟩
    simpa [Deployment.isMatched] using hstale
  · have htarget : target ∈ p.work.instances := hs.targets_subset (by simp [targets, hplan])
    have hperm := List.perm_cons_erase htarget
    have hcount := hperm.countP_eq p.work.isMatched
    have hlength := hperm.length_eq
    rw [List.countP_cons] at hcount
    rw [List.length_cons] at hlength
    simp only [Dispatch.removesMatched_remove, Dispatch.isCreate_remove, Bool.not_false, if_true]
      at hleast hfloor
    rw [hinst, hs.filter_id_ne htarget]
    refine ⟨?_, by omega, (List.erase_sublist.filter _).trans hstale⟩
    by_cases hm : p.work.isMatched target = true
    · simp only [hm, if_true] at hleast hcount
      omega
    · simp only [hm] at hleast hcount
      omega
  · rw [hinst]
    exact ⟨by omega, by omega, hstale⟩

theorem Serving.retire {least floor : Nat} {stale : List Instance} {p : Pass}
    (h : p.Serving least floor stale) (hfloor : floor ≤ p.work.scale) (selector : Placement.Selector)
    (phase : Phase) : ({ p with
      phase, plan := (retirees selector p.work).map (Dispatch.remove · true) } : Pass).Serving
        least floor stale := by
  obtain ⟨hleast, hle, hstale⟩ := h
  have hzero : ((retirees selector p.work).map (Dispatch.remove · true)).countP
      (Dispatch.removesMatched p.work) = 0 := by
    rw [List.countP_eq_zero]
    intro x hx
    obtain ⟨i, hi, rfl⟩ := List.mem_map.1 hx
    simp [(mem_retirees hi).2]
  have hlength := length_retirees selector p.work
  have hcount := List.countP_le_length (p := fun x : Dispatch => !x.isCreate)
    (l := (retirees selector p.work).map (Dispatch.remove · true))
  rw [List.length_map] at hcount
  refine ⟨?_, ?_, hstale⟩
  · rw [matchedRemovals, hzero]
    dsimp only
    omega
  · dsimp only
    omega

theorem serving_of_start {f : Fleet} {d : Deployment} {p : Pass} {selector : Placement.Selector}
    (h : start f d = .planned p selector) :
    p.Serving (min (dropLost f.registry d).matched.length d.scale)
      (min d.scale (dropLost f.registry d).instances.length) (dropLost f.registry d).stale := by
  obtain ⟨hcopy, hinst, -, hplan, -⟩ := start_planned h
  have hmatched : p.work.matched = (dropLost f.registry d).matched := by
    rw [Deployment.matched, hcopy.isMatched, hinst]
    rfl
  have hstale : p.work.stale = (dropLost f.registry d).stale := by
    rw [Deployment.stale, hcopy.isMatched, hinst]
    rfl
  have hle := (dropLost f.registry d).length_matched_add_stale
  refine ⟨?_, ?_, hstale ▸ List.Sublist.refl _⟩
  · cases hplan with
    | remove victims hscale hv hplan _ =>
      have hcount : p.matchedRemovals ≤ victims.length := by
        rw [matchedRemovals, hplan]
        exact Nat.le_trans List.countP_le_length (by simp)
      rw [hv, Placement.Selector.selectVictims, Placement.VictimPolicy.length_choose] at hcount
      rw [hmatched]
      omega
    | create election targets hscale _ _ hplan _ =>
      have hcount : p.matchedRemovals = 0 := by
        rw [matchedRemovals, hplan]
        exact countP_creations_eq_zero fun _ _ => rfl
      rw [hcount, hmatched]
      omega
  · cases hplan with
    | remove victims hscale hv hplan _ =>
      have hcount : p.plan.countP (!·.isCreate) ≤ victims.length := by
        rw [hplan]
        exact Nat.le_trans List.countP_le_length (by simp)
      rw [hv, Placement.Selector.selectVictims, Placement.VictimPolicy.length_choose] at hcount
      rw [hinst]
      omega
    | create election targets hscale _ _ hplan _ =>
      have hcount : p.plan.countP (!·.isCreate) = 0 := by
        rw [hplan]
        exact countP_creations_eq_zero fun _ _ => rfl
      rw [hcount, hinst]
      omega

/-- The matched instances and the total do not fall below what the scale asks for, and no stale
instance is new. -/
theorem Course.serving {f : Fleet} {d : Deployment} (hd : d.DistinctIds) {p₀ p : Pass}
    {selector : Placement.Selector} {outs : List Outcome}
    (h₀ : start f d = .planned p₀ selector) (h : Course p₀ p outs) :
    p.Serving (min (dropLost f.registry d).matched.length d.scale)
      (min d.scale (dropLost f.registry d).instances.length) (dropLost f.registry d).stale := by
  induction h with
  | opened => exact serving_of_start h₀
  | folded now hcourse hplan ih => exact ih.take (hcourse.sound (sound_of_start hd h₀)) now hplan
  | proceeded g hcourse _ hnext ih =>
    obtain ⟨-, rfl⟩ := proceed_dispatching hnext
    have hscale := (hcourse.copyOf.trans (start_planned h₀).1).scale
    exact ih.retire (hscale ▸ Nat.min_le_left ..) ..

/-- A pass removes no more matched instances than there are beyond the scale. -/
theorem Course.removed_le {f : Fleet} {d : Deployment} {p₀ p : Pass}
    {selector : Placement.Selector} {outs : List Outcome}
    (h₀ : start f d = .planned p₀ selector) (h : Course p₀ p outs) :
    outs.countP (·.dispatch.removesMatched d) ≤
      (dropLost f.registry d).matched.length - d.scale := by
  obtain ⟨hcopy, -, -, hplan, -⟩ := start_planned h₀
  have hle := h.countP_add_countP_le (q := Dispatch.removesMatched d) fun i hi => by
    simpa [hcopy.isMatched] using hi
  refine Nat.le_trans (Nat.le_trans (Nat.le_add_right ..) hle) ?_
  cases hplan with
  | remove victims hscale hv hplan _ =>
    rw [hplan]
    refine Nat.le_trans List.countP_le_length ?_
    rw [List.length_map, hv, Placement.Selector.selectVictims,
      Placement.VictimPolicy.length_choose]
    omega
  | create election targets _ _ _ hplan _ =>
    rw [hplan, countP_creations_eq_zero fun _ _ => rfl]
    exact Nat.zero_le _

/-! ### Runs of passes under one scale -/

/-- Passes on the record `d₀`, from the registry `r₀` on, under one scale: the container
specification may change at any time, and the registry may change but for nodes leaving it. Requests
that come while a pass runs stay when its outcome is taken back. -/
inductive Rollout (r₀ : Registry) (d₀ : Deployment) : Registry → Deployment → Prop
  | begin : r₀.Keyed → d₀.DistinctIds → Rollout r₀ d₀ r₀ d₀
  | registry {r : Registry} {d : Deployment} (r' : Registry) :
      Rollout r₀ d₀ r d → r'.Keyed → (∀ id, r.Knows id → r'.Knows id) → Rollout r₀ d₀ r' d
  | update {r : Registry} {d : Deployment} (request : Request) :
      Rollout r₀ d₀ r d → request.scale = d₀.request.scale → Rollout r₀ d₀ r (d.update request)
  | failed {f : Fleet} {d work : Deployment} {e : Region.Error} :
      Rollout r₀ d₀ f.registry d → start f d = .failed work e → Rollout r₀ d₀ f.registry work
  | passed {f g : Fleet} {d work : Deployment} {p₀ p : Pass} {selector : Placement.Selector}
      {outs : List Outcome} {report : Report} (requests : List Request) :
      Rollout r₀ d₀ f.registry d → start f d = .planned p₀ selector → Course p₀ p outs →
      p.plan = [] → p.proceed g = .finished work report →
      (∀ request ∈ requests, request.scale = d₀.request.scale) →
      Rollout r₀ d₀ f.registry ((requests.foldl Deployment.update d).absorb work)

/-- What a rollout keeps: the scale, distinct ids and enough instances on known nodes. -/
structure RolloutSafe (scale : UInt32) (floor : Nat) (r : Registry) (d : Deployment) : Prop where
  scale : d.request.scale = scale
  keyed : r.Keyed
  distinctIds : d.DistinctIds
  floor : floor ≤ (dropLost r d).instances.length

theorem RolloutSafe.scale_eq {scale : UInt32} {floor : Nat} {r : Registry} {d : Deployment}
    (h : RolloutSafe scale floor r d) : d.scale = scale.toNat := by
  rw [Deployment.scale, h.scale]

theorem length_dropLost_mono {r r' : Registry} (hr : ∀ id, r.Knows id → r'.Knows id)
    (d : Deployment) : (dropLost r d).instances.length ≤ (dropLost r' d).instances.length :=
  (List.monotone_filter_right d.instances fun _ h => hr _ h).length_le

/-- The floor holds at every point of a pass. -/
theorem RolloutSafe.course {scale : UInt32} {floor : Nat} {f : Fleet} {d : Deployment}
    (h : RolloutSafe scale floor f.registry d) (hfloor : floor ≤ scale.toNat) {p₀ p : Pass}
    {selector : Placement.Selector} {outs : List Outcome}
    (h₀ : start f d = .planned p₀ selector) (hcourse : Course p₀ p outs) :
    floor ≤ p.work.instances.length := by
  have hle := (hcourse.serving h.distinctIds h₀).floor
  have hscale := h.scale_eq
  have := h.floor
  omega

theorem foldl_update_scale {scale : UInt32} {requests : List Request} {d : Deployment}
    (hd : d.request.scale = scale) (h : ∀ request ∈ requests, request.scale = scale) :
    (requests.foldl Deployment.update d).request.scale = scale := by
  induction requests generalizing d with
  | nil => exact hd
  | cons request rest ih =>
    refine ih (d := d.update request) (h request List.mem_cons_self) fun r hr => ?_
    exact h r (List.mem_cons_of_mem _ hr)

/-- Passes under one scale keep what they begin with, up to the scale. -/
theorem Rollout.safe {r₀ r : Registry} {d₀ d : Deployment} (h : Rollout r₀ d₀ r d) :
    RolloutSafe d₀.request.scale (min d₀.scale (dropLost r₀ d₀).instances.length) r d := by
  induction h with
  | begin hr hd => exact ⟨rfl, hr, hd, Nat.min_le_right ..⟩
  | registry r' _ hkeyed hr ih =>
    exact ⟨ih.scale, hkeyed, ih.distinctIds, Nat.le_trans ih.floor (length_dropLost_mono hr _)⟩
  | update request _ hscale ih =>
    exact ⟨hscale, ih.keyed, ih.distinctIds.of_sublist rfl (List.Sublist.refl _) rfl, ih.floor⟩
  | @failed f d work e _ hstart ih =>
    obtain ⟨hcopy, hinst, hseq⟩ := start_failed hstart
    have hknown : ∀ i ∈ work.instances, f.registry.Knows i.nodeId := by
      rw [hinst]
      exact fun i hi => (List.mem_filter.1 hi).2
    refine ⟨hcopy.request ▸ ih.scale, ih.keyed,
      ih.distinctIds.of_sublist hcopy.id (hinst ▸ dropLost_sublist ..) hseq, ?_⟩
    rw [dropLost_instances_eq hknown, hinst]
    exact ih.floor
  | @passed f g d work p₀ p selector outs report requests _ hstart hcourse _ hend hscale ih =>
    -- the pass ends with instances on known nodes, so none of them is lost afterwards
    obtain ⟨hwork, hinst, hseq⟩ := finished_eq hend
    have hcopy := (hwork.trans hcourse.copyOf).trans (start_planned hstart).1
    have hknown : ∀ i ∈ ((requests.foldl Deployment.update d).absorb work).instances,
        f.registry.Knows i.nodeId := by
      rw [Deployment.absorb_instances, hinst]
      exact (hcourse.hosted (hosted_of_start ih.keyed hstart)).instances
    have hdistinct := (hcourse.sound (sound_of_start ih.distinctIds hstart)).distinctIds
    refine ⟨?_, ih.keyed, ?_, ?_⟩
    · unfold Deployment.absorb
      split
      · exact hcopy.request ▸ ih.scale
      · exact foldl_update_scale ih.scale hscale
    · exact (hdistinct.of_sublist hwork.id (hinst ▸ List.Sublist.refl _) hseq).absorb _
    · rw [dropLost_instances_eq hknown, Deployment.absorb_instances, hinst]
      exact ih.course (Nat.min_le_left ..) hstart hcourse

/-- **A pass keeps what serves.** At every point of a pass on a record with distinct ids, with
`kept` the record without lost instances, the matched instances lie between their number and the
scale, the total is not below the scale or the total there was, no stale instance is new, and no
more matched instances were planned to be removed than there were beyond the scale. Hence no run of
passes under one scale, without nodes leaving, takes the total below the scale or what there was. -/
theorem pass_keeps_serving {d : Deployment} (hd : d.DistinctIds) :
    (∀ (f : Fleet) (work : Deployment) (e : Region.Error), start f d = .failed work e →
      work.instances = (dropLost f.registry d).instances) ∧
    (∀ (f : Fleet) (p₀ p : Pass) (selector : Placement.Selector) (outs : List Outcome),
      start f d = .planned p₀ selector → Course p₀ p outs →
      let kept := dropLost f.registry d
      min kept.matched.length d.scale ≤ p.work.matched.length ∧
      p.work.matched.length ≤ max kept.matched.length d.scale ∧
      min d.scale kept.instances.length ≤ p.work.instances.length ∧
      p.work.stale.Sublist kept.stale ∧
      outs.countP (·.dispatch.removesMatched d) ≤ kept.matched.length - d.scale) ∧
    (∀ (r₀ r : Registry) (d' : Deployment), Rollout r₀ d r d' →
      min d.scale (dropLost r₀ d).instances.length ≤ d'.instances.length ∧
      ∀ (f : Fleet) (p₀ p : Pass) (selector : Placement.Selector) (outs : List Outcome),
        f.registry = r → start f d' = .planned p₀ selector → Course p₀ p outs →
        min d.scale (dropLost r₀ d).instances.length ≤ p.work.instances.length) := by
  refine ⟨fun f work e h => (start_failed h).2.1, ?_, ?_⟩
  · intro f p₀ p selector outs h₀ h
    obtain ⟨hleast, hfloor, hstale⟩ := h.serving hd h₀
    exact ⟨by omega, h.matched_le h₀, by omega, hstale, h.removed_le h₀⟩
  · intro r₀ r d' hroll
    have hsafe := hroll.safe
    refine ⟨Nat.le_trans hsafe.floor (dropLost_sublist ..).length_le, ?_⟩
    rintro f p₀ p selector outs rfl h₀ h
    exact hsafe.course (Nat.min_le_left ..) h₀ h

/-- A record with one stale instance left after its replacement. -/
def replacing : Deployment where
  id := "web"
  request := { container := { image := "web:2" }, scale := 1 }
  specFingerprint := "new"
  instances := [⟨"web-1", "n", "h1", "old", 0, 1⟩, ⟨"web-2", "n", "h2", "new", 1, 2⟩]
  createdAt := 0
  nextSeq := 3
  errorLogCapacity := 1

/-- A fleet of one node. -/
def lone : Fleet where
  tree := ⟨[{ name := "" }]⟩
  registry := .ofNodes [{ id := "n" }]
  selector := {}
  wall := 2

theorem distinctIds_replacing : replacing.DistinctIds := by
  refine ⟨by decide, fun i hi seq hle => ?_⟩
  have hseq : ∃ k, k < 3 ∧ i.id = replacing.instanceId k := by
    simp only [replacing, List.mem_cons, List.not_mem_nil, or_false] at hi
    rcases hi with rfl | rfl
    · exact ⟨1, by decide, by decide⟩
    · exact ⟨2, by decide, by decide⟩
  obtain ⟨k, hk, he⟩ := hseq
  rw [he]
  have : 3 ≤ seq := hle
  exact replacing.instanceId_injective.ne (by omega)

theorem pass_keeps_serving_replacing :
    replacing.DistinctIds ∧ Rollout lone.registry replacing lone.registry replacing ∧
    (∃ p₀ selector, start lone replacing = .planned p₀ selector ∧
      ∀ p outs, Course p₀ p outs → p.work.matched.length = 1 ∧ 1 ≤ p.work.instances.length) ∧
    ∀ r d, Rollout lone.registry replacing r d → 1 ≤ d.instances.length := by
  obtain ⟨-, hpass, hroll⟩ := pass_keeps_serving distinctIds_replacing
  refine ⟨distinctIds_replacing, .begin (Registry.keyed_ofNodes _) distinctIds_replacing,
    ⟨_, _, rfl, fun p outs hcourse => ?_⟩, fun r d h => (hroll _ r d h).1⟩
  obtain ⟨hleast, hmost, htotal, -⟩ := hpass lone _ p _ outs rfl hcourse
  exact ⟨Nat.le_antisymm hmost hleast, htotal⟩

end Pass

end FleetControl
