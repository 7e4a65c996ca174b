import FleetControl.Proofs.Dispatch.Calm
import FleetControl.Proofs.Pass.Course

/-!
# Passes without trouble

A pass is carried out plan by plan, and every dispatch succeeds (`Pass.Succeeds`); on calm engines
that is always so (`Pass.Ensures`). The instances that such a pass leaves are known exactly
(`Pass.Succeeds.achieved`):

* with too few matched instances it has created one on each node of the selection, with too many it
  has removed the victims (`Pass.Scaled`);
* it has removed the stale instances that there were beyond the scale;
* it calls the record converged if the matched instances are as many as wanted and none is stale.

`Pass.exists_ensures` says that the call for the pass returns where permits can be counted. Where
they cannot, a pass is aborted at the first call that it has to make (`Pass.Ensures.eq_none`).
-/

namespace FleetControl

namespace Deployment

/-- The record without some instances. -/
def without (d : Deployment) (gone : List Instance) : Deployment :=
  { d with instances := d.instances.filter fun i => !(gone.map (·.id)).contains i.id }

/-- Instances with distinct ids are those that go and those that stay. -/
theorem perm_without {d : Deployment} (hd : d.DistinctIds) {gone : List Instance}
    (hgone : gone.Subperm d.instances) : d.instances.Perm (gone ++ (d.without gone).instances) := by
  -- an instance stays if its id is not one of those that go, and ids tell instances apart
  have hinj := List.inj_on_of_nodup_map hd.nodup
  have hnodup : d.instances.Nodup := List.Nodup.of_map _ hd.nodup
  obtain ⟨l, hperm, hsub⟩ := hgone
  have hgoneNodup : gone.Nodup := hperm.nodup_iff.1 (hnodup.sublist hsub)
  have hmem : ∀ i, i ∈ gone → i ∈ d.instances := fun i hi => hsub.subset (hperm.mem_iff.2 hi)
  have hstays : ∀ i, i ∈ (d.without gone).instances ↔ i ∈ d.instances ∧ i ∉ gone := by
    intro i
    rw [without, List.mem_filter]
    refine and_congr_right fun hi => ?_
    simp only [Bool.not_eq_true', List.contains_eq_mem, decide_eq_false_iff_not, List.mem_map,
      not_exists, not_and]
    constructor
    · exact fun h hgone => h i hgone rfl
    · exact fun h j hj hid => h (hinj (hmem j hj) hi hid ▸ hj)
  refine (List.perm_ext_iff_of_nodup hnodup ?_).2 fun i => ?_
  · refine List.nodup_append.2 ⟨hgoneNodup, hnodup.filter _, ?_⟩
    rintro i hi j hj rfl
    exact ((hstays i).1 hj).2 hi
  · rw [List.mem_append, hstays]
    by_cases hi : i ∈ gone
    · exact iff_of_true (hmem i hi) (.inl hi)
    · simp [hi]

theorem without_nil (d : Deployment) : d.without [] = d := by
  have hall : d.instances.filter (fun _ => true) = d.instances :=
    List.filter_eq_self.2 fun _ _ => rfl
  show { d with instances := d.instances.filter fun _ => true } = d
  rw [hall]

theorem without_cons (d : Deployment) (i : Instance) (gone : List Instance) :
    ({ d with instances := d.instances.filter (·.id != i.id) } : Deployment).without gone =
      d.without (i :: gone) := by
  simp only [without, List.filter_filter, List.map_cons, List.contains_cons, Bool.not_or]
  congr 2
  funext j
  exact Bool.and_comm ..

theorem countP_without {d : Deployment} (hd : d.DistinctIds) {gone : List Instance}
    (hgone : gone.Subperm d.instances) (q : Instance → Bool) :
    gone.countP q + (d.without gone).instances.countP q = d.instances.countP q := by
  rw [(perm_without hd hgone).countP_eq, List.countP_append]

/-- What none of those that go satisfies is counted as before. -/
theorem countP_without_of_none {d : Deployment} (hd : d.DistinctIds) {gone : List Instance}
    (hgone : gone.Subperm d.instances) {q : Instance → Bool} (hq : ∀ i ∈ gone, ¬ q i) :
    (d.without gone).instances.countP q = d.instances.countP q := by
  rw [← countP_without hd hgone q, List.countP_eq_zero.2 hq, Nat.zero_add]

/-- What all of those that go satisfy is counted less by their number. -/
theorem countP_without_of_all {d : Deployment} (hd : d.DistinctIds) {gone : List Instance}
    (hgone : gone.Subperm d.instances) {q : Instance → Bool} (hq : ∀ i ∈ gone, q i) :
    (d.without gone).instances.countP q = d.instances.countP q - gone.length := by
  rw [← countP_without hd hgone q, List.countP_eq_length.2 hq, Nat.add_sub_cancel_left]

/-- How many matched instances are on nodes of a kind. -/
def matchedWhere (d : Deployment) (q : String → Bool) : Nat :=
  d.instances.countP fun i => q i.nodeId && d.isMatched i

theorem matchedWhere_true (d : Deployment) : d.matchedWhere (fun _ => true) = d.matched.length := by
  rw [length_matched]
  rfl

/-- How many matched instances a node hosts. -/
def matchedOn (d : Deployment) (node : Node) : Nat := d.matched.countP (·.nodeId == node.id)

theorem matchedOn_eq (d : Deployment) (node : Node) :
    d.matchedOn node = d.matchedWhere (· == node.id) :=
  List.countP_filter

end Deployment

namespace Pass

/-! ### Folding successes -/

/-- The outcomes are those of a plan, and all are good. -/
def AllOk (plan : List Dispatch) (outcomes : List Outcome) : Prop :=
  outcomes.map (·.dispatch) = plan ∧ ∀ o ∈ outcomes, ∃ handle, o.result = .ok handle

theorem AllOk.cons {x : Dispatch} {plan : List Dispatch} {outcomes : List Outcome}
    (h : AllOk (x :: plan) outcomes) :
    ∃ handle rest, outcomes = ⟨x, .ok handle⟩ :: rest ∧ AllOk plan rest := by
  obtain ⟨hmap, hok⟩ := h
  cases outcomes with
  | nil => cases hmap
  | cons o rest =>
    obtain ⟨dispatch, result⟩ := o
    obtain ⟨handle, hresult⟩ := hok _ List.mem_cons_self
    rw [List.map_cons, List.cons.injEq] at hmap
    cases hresult
    cases hmap.1
    exact ⟨handle, rest, rfl, hmap.2, fun o ho => hok o (List.mem_cons_of_mem _ ho)⟩

theorem AllOk.nil {outcomes : List Outcome} (h : AllOk [] outcomes) : outcomes = [] :=
  List.map_eq_nil_iff.1 h.1

/-- Creations that succeed add one instance on each node. -/
theorem foldAll_creations (now : Nat) {spec : ContainerSpec} {seq : Nat} {nodes : List Node}
    {outcomes : List Outcome} (h : AllOk (creations spec seq nodes) outcomes) (p : Pass) :
    ∃ created : List Instance, created.map (·.nodeId) = nodes.map (·.id) ∧
      (∀ i ∈ created, i.specFingerprint = p.work.specFingerprint) ∧
      (p.foldAll now outcomes).work =
        { p.work with instances := p.work.instances ++ created } := by
  induction nodes generalizing seq outcomes p with
  | nil =>
    cases h.nil
    refine ⟨[], rfl, fun i hi => absurd hi List.not_mem_nil, ?_⟩
    rw [List.append_nil]
    rfl
  | cons node nodes ih =>
    obtain ⟨handle, rest, rfl, hrest⟩ := h.cons
    obtain ⟨created, hnodes, hspec, hwork⟩ :=
      ih hrest (p.take now ⟨.create node spec seq, .ok handle⟩)
    refine ⟨⟨p.work.instanceId seq, node.id, handle, p.work.specFingerprint, now, seq⟩ :: created,
      ?_, ?_, ?_⟩
    · rw [List.map_cons, List.map_cons, hnodes]
    · intro i hi
      rcases List.mem_cons.1 hi with rfl | hi
      · rfl
      · exact hspec i hi
    · rw [foldAll_cons, hwork, List.append_cons]
      rfl

/-- Removals that succeed leave the record without their instances. -/
theorem foldAll_removals (now : Nat) {gone : List Instance} {stale : Bool}
    {outcomes : List Outcome} (h : AllOk (gone.map (Dispatch.remove · stale)) outcomes) (p : Pass) :
    (p.foldAll now outcomes).work = p.work.without gone := by
  induction gone generalizing outcomes p with
  | nil =>
    cases h.nil
    exact (p.work.without_nil).symm
  | cons i gone ih =>
    obtain ⟨handle, rest, rfl, hrest⟩ := h.cons
    rw [foldAll_cons, ih hrest, ← Deployment.without_cons]
    rfl

/-! ### Whole passes -/

/-- What a pass comes to when every dispatch of its plans succeeds, whatever the clock and the
policies say by then. -/
inductive Prospers : Progress → Deployment → Prop
  | finished (work : Deployment) (report : Report) : Prospers (.finished work report) work
  | dispatched {pass : Pass} {outcomes : List Outcome} {d : Deployment} (f : Fleet) :
      AllOk pass.plan outcomes → Prospers (pass.conclude f outcomes) d →
      Prospers (.dispatching pass) d

/-- A pass on the record `d` in which every dispatch succeeds leaves the record `d'`. -/
def Succeeds (f : Fleet) (d d' : Deployment) : Prop :=
  ∃ pass selector g, start f d = .planned pass selector ∧ Prospers (pass.launch g) d'

/-- What a pass leaves when its plans are carried out, whatever the clock and the policies say by
then. With more permits than can be counted it is aborted, and leaves nothing. -/
inductive Completes (limit timeout : Nat) : Progress → Option Deployment → Prop
  | finished (work : Deployment) (report : Report) :
      Completes limit timeout (.finished work report) (some work)
  | aborted {pass : Pass} : Batch.maxPermits < (Batch.ofPlan limit timeout pass.plan).permits →
      Completes limit timeout (.dispatching pass) none
  | dispatched {pass : Pass} {outcomes : List Outcome} {result : Option Deployment} (f : Fleet) :
      Batch.Carries limit timeout pass.plan outcomes →
      Completes limit timeout (pass.conclude f outcomes) result →
      Completes limit timeout (.dispatching pass) result

/-- The call for a pass on the record `d` returns and leaves a record, or is aborted. -/
def Ensures (limit timeout : Nat) (f : Fleet) (d : Deployment) (result : Option Deployment) : Prop :=
  ∃ pass selector g, start f d = .planned pass selector ∧
    Completes limit timeout (pass.launch g) result

variable {limit timeout : Nat} {p : Pass} {d d' : Deployment} {result : Option Deployment}

theorem Completes.prospers {progress : Progress} (h : Completes limit timeout progress result)
    (hresult : result = some d') : Prospers progress d' := by
  induction h with
  | finished work report =>
    obtain rfl := Option.some.inj hresult
    exact .finished work report
  | aborted _ => simp at hresult
  | dispatched f hcarries _ ih => exact .dispatched f hcarries.result (ih hresult)

theorem Ensures.succeeds {f : Fleet} (h : Ensures limit timeout f d (some d')) :
    Succeeds f d d' := by
  obtain ⟨pass, selector, g, hstart, hcompletes⟩ := h
  exact ⟨pass, selector, g, hstart, hcompletes.prospers rfl⟩

/-- No pass is aborted whose permits can be counted. -/
theorem Completes.ne_none (hlimit : limit ≤ Batch.maxPermits) {progress : Progress}
    (h : Completes limit timeout progress result) : result ≠ none := by
  induction h with
  | finished work report => simp
  | aborted hover => exact absurd hover (Nat.not_lt.2 (Batch.permits_ofPlan_le hlimit ..))
  | dispatched f _ _ ih => exact ih

theorem Ensures.ne_none (hlimit : limit ≤ Batch.maxPermits) {f : Fleet}
    (h : Ensures limit timeout f d result) : result ≠ none := by
  obtain ⟨pass, selector, g, -, hcompletes⟩ := h
  exact hcompletes.ne_none hlimit

/-- **With more permits than can be counted a pass that has a call to make is aborted.** -/
theorem Ensures.eq_none (hlimit : Batch.maxPermits < limit) {f : Fleet}
    {selector : Placement.Selector} (hstart : start f d = .planned p selector)
    (hplan : p.plan ≠ []) (h : Ensures limit timeout f d result) : result = none := by
  obtain ⟨pass, selector', g, hstart', hcompletes⟩ := h
  obtain ⟨rfl, -⟩ := Opening.planned.inj (hstart.symm.trans hstart')
  rw [launch, if_neg (by simpa using hplan)] at hcompletes
  cases hcompletes with
  | aborted _ => rfl
  | dispatched f' hcarries _ =>
    have hle : limit ≤ Batch.maxPermits := (Nat.le_max_left ..).trans hcarries.countable
    omega

theorem Prospers.launched {f : Fleet} (h : Prospers (p.launch f) d') :
    ∃ outcomes now g, AllOk p.plan outcomes ∧
      Prospers ((p.foldAll now outcomes).proceed g) d' := by
  unfold launch at h
  split at h
  · next hplan =>
    rw [List.isEmpty_iff.1 hplan]
    exact ⟨[], f.wall, f, ⟨rfl, fun o ho => absurd ho List.not_mem_nil⟩, h⟩
  · cases h with
    | dispatched g hok hrest => exact ⟨_, g.wall, g, hok, hrest⟩

/-- After its first plan a pass removes stale instances and ends. -/
theorem Prospers.retired {f : Fleet} (hphase : p.phase = .scale) (h : Prospers (p.proceed f) d') :
    ∃ (q : Pass) (now : Nat) (report : Report), q.work = p.work.without (retirees f.selector p.work) ∧
      q.finish now q.work.scale = .finished d' report := by
  unfold proceed at h
  rw [hphase] at h
  dsimp only at h
  split at h
  · next hplan =>
    rw [List.map_eq_nil_iff.1 hplan, Deployment.without_nil]
    cases hend : p.finish f.wall p.work.scale with
    | dispatching q => simp [finish] at hend
    | finished work report =>
      rw [hend] at h
      cases h
      exact ⟨p, f.wall, report, rfl, hend⟩
  · cases h with
    | @dispatched _ outcomes _ g hok hrest =>
      have hwork := foldAll_removals g.wall hok
        { p with phase := .retire
                 plan := (retirees f.selector p.work).map (Dispatch.remove · true) }
      cases hend : conclude g outcomes { p with
        phase := .retire
        plan := (retirees f.selector p.work).map (Dispatch.remove · true) } with
      | dispatching q => simp [conclude, proceed, foldAll, finish] at hend
      | finished work report =>
        rw [hend] at hrest
        cases hrest
        exact ⟨_, g.wall, report, hwork, hend⟩

theorem finish_state {now target : Nat} {work : Deployment} {report : Report}
    (h : p.finish now target = .finished work report) :
    work.state = .converged ↔ p.work.matched.length = target ∧ p.work.stale = [] := by
  simp only [finish, Progress.finished.injEq] at h
  obtain ⟨rfl, -⟩ := h
  simp only [List.isEmpty_iff, Bool.and_eq_true, beq_iff_eq]
  split <;> simp_all

/-! ### What a pass achieves -/

/-- The record `q` has the instances of `d` brought closer to the scale by one selection. -/
inductive Scaled (f : Fleet) (d q : Deployment) : Prop
  | created (election : Placement.Election) (targets : List Node) (created : List Instance) :
      d.matched.length < d.scale →
      Placement.elect d.request f.tree f.registry.list = .ok election →
      targets.Subperm (f.selector.candidates election.nodes d.matched) →
      targets.length = min (d.scale - d.matched.length)
        (f.selector.candidates election.nodes d.matched).length →
      created.map (·.nodeId) = targets.map (·.id) →
      (∀ i ∈ created, i.specFingerprint = d.specFingerprint) →
      q.instances = d.instances ++ created → Scaled f d q
  | removed (victims : List Instance) :
      d.scale ≤ d.matched.length → victims.Subperm d.matched →
      victims.length = min (d.matched.length - d.scale) Placement.maxDemand →
      q.instances = (d.without victims).instances → Scaled f d q

theorem dropLost_eq {r : Registry} (h : ∀ i ∈ d.instances, r.Knows i.nodeId) :
    dropLost r d = d := by
  have hinst := dropLost_instances_eq h
  rw [dropLost] at hinst ⊢
  dsimp only at hinst
  rw [hinst]

/-- The first plan of a pass brings the record closer to the scale. -/
theorem scaled_of_start {f : Fleet} {selector : Placement.Selector}
    (hd : ∀ i ∈ d.instances, f.registry.Knows i.nodeId)
    (hstart : start f d = .planned p selector) {outcomes : List Outcome}
    (hok : AllOk p.plan outcomes) (now : Nat) : Scaled f d (p.foldAll now outcomes).work := by
  obtain ⟨hcopy, hinst, -, hplan, -⟩ := start_planned hstart
  rw [dropLost_eq hd] at hinst
  cases hplan with
  | remove victims hle hvictims hplan _ =>
    rw [dropLost_eq hd] at hle hvictims
    rw [hplan] at hok
    refine .removed victims hle ?_ ?_ ?_
    · rw [hvictims]
      exact Placement.VictimPolicy.choose_subperm ..
    · rw [hvictims]
      refine (Placement.VictimPolicy.length_choose ..).trans ?_
      omega
    · rw [foldAll_removals now hok, Deployment.without, Deployment.without, hinst]
  | create election targets hlt helect htargets hplan _ =>
    rw [dropLost_eq hd] at hlt htargets
    rw [hplan] at hok
    obtain ⟨created, hnodes, hspec, hwork⟩ := foldAll_creations now hok p
    refine .created election targets created hlt helect ?_ ?_ hnodes ?_ ?_
    · rw [htargets]
      exact Placement.Selector.selectTargets_subperm ..
    · rw [htargets]
      exact Placement.Selector.length_selectTargets ..
    · rw [← hcopy.specFingerprint]
      exact hspec
    · rw [hwork, hinst]

section

variable {f : Fleet} {q : Deployment}

/-- Bringing the matched instances closer to the scale leaves the stale ones. -/
theorem Scaled.length_stale (hd : d.DistinctIds) (hcopy : q.CopyOf d) (h : Scaled f d q) :
    q.stale.length = d.stale.length := by
  rw [q.length_stale, d.length_stale, hcopy.isMatched]
  cases h with
  | created election targets created _ _ _ _ _ hspec hinst =>
    have hnone : created.countP (fun i => !d.isMatched i) = 0 := by
      refine List.countP_eq_zero.2 fun i hi => ?_
      simp [Deployment.isMatched, hspec i hi]
    rw [hinst, List.countP_append, hnone, Nat.add_zero]
  | removed victims _ hvictims _ hinst =>
    rw [hinst, Deployment.countP_without_of_none hd (hvictims.trans List.filter_sublist.subperm)]
    intro i hi
    simpa using (List.mem_filter.1 (hvictims.subset hi)).2

/-- Each target gets one matched instance. -/
theorem countP_created {targets : List Node} {created : List Instance}
    (hnodes : created.map (·.nodeId) = targets.map (·.id))
    (hspec : ∀ i ∈ created, i.specFingerprint = d.specFingerprint) (s : String → Bool) :
    created.countP (fun i => s i.nodeId && d.isMatched i) = targets.countP fun node => s node.id := by
  have hmatched : ∀ i ∈ created, (s i.nodeId && d.isMatched i) = s i.nodeId := by
    intro i hi
    rw [Deployment.isMatched, hspec i hi, beq_self_eq_true, Bool.and_true]
  calc created.countP (fun i => s i.nodeId && d.isMatched i)
      = created.countP (s ∘ (·.nodeId)) := List.countP_congr fun i hi => by rw [hmatched i hi]; rfl
    _ = (created.map (·.nodeId)).countP s := List.countP_map.symm
    _ = targets.countP (s ∘ (·.id)) := by rw [hnodes, List.countP_map]

theorem matchedWhere_of_created (hcopy : q.CopyOf d) {targets : List Node}
    {created : List Instance} (hnodes : created.map (·.nodeId) = targets.map (·.id))
    (hspec : ∀ i ∈ created, i.specFingerprint = d.specFingerprint)
    (hinst : q.instances = d.instances ++ created) (s : String → Bool) :
    q.matchedWhere s = d.matchedWhere s + targets.countP fun node => s node.id := by
  rw [Deployment.matchedWhere, hcopy.isMatched, hinst, List.countP_append,
    countP_created hnodes hspec]
  rfl

theorem length_matched_of_removed (hd : d.DistinctIds) (hcopy : q.CopyOf d)
    {victims : List Instance} (hvictims : victims.Subperm d.matched)
    (hinst : q.instances = (d.without victims).instances) :
    q.matched.length = d.matched.length - victims.length := by
  rw [q.length_matched, d.length_matched, hcopy.isMatched, hinst]
  refine Deployment.countP_without_of_all hd (hvictims.trans List.filter_sublist.subperm) ?_
  exact fun i hi => (List.mem_filter.1 (hvictims.subset hi)).2

/-- If the number of matched instances stays, then the instances do. -/
theorem Scaled.unchanged (hd : d.DistinctIds) (hcopy : q.CopyOf d) (h : Scaled f d q)
    (hmatched : q.matched.length = d.matched.length) : q.instances = d.instances := by
  cases h with
  | created election targets created _ _ _ _ hnodes hspec hinst =>
    -- nothing was created
    have hgrown := matchedWhere_of_created hcopy hnodes hspec hinst fun _ => true
    rw [q.matchedWhere_true, d.matchedWhere_true, List.countP_true, hmatched] at hgrown
    have hlength : created.length = targets.length := by
      rw [← List.length_map (·.nodeId), hnodes, List.length_map]
    have hnil : created = [] := List.length_eq_zero_iff.1 (by omega)
    rw [hinst, hnil, List.append_nil]
  | removed victims _ hvictims _ hinst =>
    -- nothing was removed
    have hfewer := length_matched_of_removed hd hcopy hvictims hinst
    have hle := hvictims.length_le
    have hnil : victims = [] := List.length_eq_zero_iff.1 (by omega)
    rw [hinst, hnil, Deployment.without_nil]

/-- Retiring stale instances leaves the matched ones, and the stale ones that are needed. -/
theorem retired_spec {selector : Placement.Selector} (hq : q.DistinctIds) (hcopy : d'.CopyOf q)
    (hinst : d'.instances = (q.without (retirees selector q)).instances) :
    (∀ s, d'.matchedWhere s = q.matchedWhere s) ∧
      d'.stale.length = min q.stale.length (q.scale - q.matched.length) ∧
      (q.stale.length ≤ q.scale - q.matched.length → d'.instances = q.instances) := by
  have hsub := retirees_subperm selector q
  have hsub' : (retirees selector q).Subperm q.instances := hsub.trans List.filter_sublist.subperm
  have hstale : ∀ i ∈ retirees selector q, q.isMatched i = false := fun i hi => by
    simpa using (List.mem_filter.1 (hsub.subset hi)).2
  have hlength := length_retirees selector q
  have htotal := q.length_matched_add_stale
  refine ⟨fun s => ?_, ?_, fun hneeded => ?_⟩
  · rw [Deployment.matchedWhere, Deployment.matchedWhere, hcopy.isMatched, hinst]
    refine Deployment.countP_without_of_none hq hsub' fun i hi => ?_
    rw [hstale i hi, Bool.and_false]
    exact Bool.false_ne_true
  · rw [d'.length_stale, hcopy.isMatched, hinst,
      Deployment.countP_without_of_all hq hsub' fun i hi => by rw [hstale i hi]; rfl,
      ← q.length_stale]
    omega
  · have hnil : retirees selector q = [] := List.length_eq_zero_iff.1 (by omega)
    rw [hinst, hnil, Deployment.without_nil]

/-- What a pass without trouble makes of the record `d`. -/
structure Achieved (f : Fleet) (d d' : Deployment) : Prop where
  copyOf : d'.CopyOf d
  placed : WellPlaced f.registry d'
  /-- Missing instances are created on candidates, one on each. -/
  created : d.matched.length < d.scale → ∃ (election : Placement.Election) (targets : List Node),
    Placement.elect d.request f.tree f.registry.list = .ok election ∧
    targets.Subperm (f.selector.candidates election.nodes d.matched) ∧
    targets.length = min (d.scale - d.matched.length)
      (f.selector.candidates election.nodes d.matched).length ∧
    d'.matched.length = d.matched.length + targets.length ∧
    ∀ node, d'.matchedOn node = d.matchedOn node + targets.countP (·.id == node.id)
  /-- Instances beyond the scale are removed. -/
  removed : d.scale ≤ d.matched.length → d'.matched.length =
    d.matched.length - min (d.matched.length - d.scale) Placement.maxDemand
  /-- Stale instances stay as far as they are needed. -/
  stale : d'.stale.length = min d.stale.length (d.scale - d'.matched.length)
  /-- The state says whether the pass found the record as it should be. -/
  state : d'.state = .converged ↔ d'.matched.length = d.scale ∧ d'.stale = []
  /-- A pass with nothing to do leaves the instances as they are. -/
  kept : d'.matched.length = d.matched.length → d.stale.length ≤ d.scale - d.matched.length →
    d'.instances = d.instances

theorem Prospers.course {p₀ : Pass} {progress : Progress} (h : Prospers progress d')
    {outs : List Outcome}
    (hprogress : progress = .dispatching p) (hcourse : Course p₀ p outs) :
    ∃ q outs f report, Course p₀ q outs ∧ q.proceed f = .finished d' report := by
  induction h generalizing p outs with
  | finished work report => cases hprogress
  | @dispatched pass outcomes d' f hok hrest ih =>
    cases hprogress
    cases hend : pass.conclude f outcomes with
    | dispatching q => exact ih hend (hcourse.conclude_dispatching hok.1 hend)
    | finished work report =>
      rw [hend] at hrest
      cases hrest
      obtain ⟨q, hq, -, hfinished⟩ := hcourse.conclude_finished hok.1 hend
      exact ⟨q, _, f, report, hq, hfinished⟩

/-- A pass in which every dispatch succeeds follows its course to the end. -/
theorem Prospers.course_launch {g : Fleet} (h : Prospers (p.launch g) d') :
    ∃ q outs f report, Course p q outs ∧ q.proceed f = .finished d' report := by
  unfold launch at h
  split at h
  · next hplan =>
    cases hnext : p.proceed g with
    | dispatching q =>
      rw [hnext] at h
      exact h.course rfl (Course.opened.proceeded g (List.isEmpty_iff.1 hplan) hnext)
    | finished work report =>
      rw [hnext] at h
      cases h
      exact ⟨p, [], g, report, .opened, hnext⟩
  · exact h.course rfl .opened

/-- **What a pass achieves.** -/
theorem Succeeds.achieved (hf : f.registry.Keyed) (hd : WellPlaced f.registry d)
    (h : Succeeds f d d') : Achieved f d d' := by
  obtain ⟨p₀, selector, g, hstart, hprospers⟩ := h
  obtain ⟨hcopy₀, -, hphase, -⟩ := start_planned hstart
  have hplanned := hd.start hf hstart
  obtain ⟨e, outs, _, _, hcourse, hend⟩ := hprospers.course_launch
  have hcopy : d'.CopyOf d := (finished_eq hend).1.trans (hcourse.copyOf.trans hcopy₀)
  -- `q` is the record between the two plans
  obtain ⟨outcomes, now, g₁, hok, hrest⟩ := hprospers.launched
  have hscaled := scaled_of_start hd.known hstart hok now
  have hfold := Course.opened.foldAll now outcomes [] (by rw [List.append_nil, hok.1])
  have hq : (p₀.foldAll now outcomes).work.DistinctIds :=
    (hplanned.course hfold).sound.distinctIds
  have hqcopy : (p₀.foldAll now outcomes).work.CopyOf d := hfold.copyOf.trans hcopy₀
  obtain ⟨p₂, now₂, report, hwork, hfinish⟩ :=
    hrest.retired (show (p₀.foldAll now outcomes).phase = .scale from hphase)
  obtain ⟨state, degraded, hd'⟩ := finish_eq hfinish
  have hinst : d'.instances = p₂.work.instances := by rw [hd']
  have hstate := finish_state hfinish
  generalize (p₀.foldAll now outcomes).work = q at *
  have hcopyq : d'.CopyOf q := hcopy.trans hqcopy.symm
  obtain ⟨hwhere, hstale, hkept⟩ := retired_spec hq hcopyq (by rw [hinst, hwork])
  have hmatched : d'.matched.length = q.matched.length := by
    rw [← d'.matchedWhere_true, hwhere, q.matchedWhere_true]
  refine ⟨hcopy, (hplanned.course hcourse).finished hend, fun hlt => ?_, fun hle => ?_, ?_, ?_,
    fun hsame hneeded => ?_⟩
  · cases hscaled with
    | removed victims hle => omega
    | created election targets created _ helect hsub hlength hnodes hspec hcreated =>
      have hgrown := matchedWhere_of_created hqcopy hnodes hspec hcreated
      refine ⟨election, targets, helect, hsub, hlength, ?_, fun node => ?_⟩
      · rw [hmatched, ← q.matchedWhere_true, hgrown, d.matchedWhere_true, List.countP_true]
      · rw [d'.matchedOn_eq, d.matchedOn_eq, hwhere, hgrown]
  · cases hscaled with
    | created election targets created hlt => omega
    | removed victims _ hvictims hlength hremoved =>
      rw [hmatched, length_matched_of_removed hd.distinctIds hqcopy hvictims hremoved, hlength]
  · rw [hstale, hscaled.length_stale hd.distinctIds hqcopy, hmatched, hqcopy.scale]
  · have hscale : p₂.work.scale = d.scale := by rw [← hcopy.scale, hd']; rfl
    rw [hstate, hscale, hd']
    rfl
  · rw [hmatched] at hsame
    rw [hkept, hscaled.unchanged hd.distinctIds hqcopy hsame]
    rwa [hscaled.length_stale hd.distinctIds hqcopy, hqcopy.scale, hsame]

end

/-! ### Passes return -/

/-- After a plan there is at most one more, and both can be carried out. -/
theorem exists_completes_proceed (hlimit : limit ≤ Batch.maxPermits) (timeout : Nat) (f : Fleet)
    (p : Pass) : ∃ d', Completes limit timeout (p.proceed f) (some d') := by
  cases hnext : p.proceed f with
  | finished work report => exact ⟨work, .finished work report⟩
  | dispatching p' =>
    obtain ⟨-, rfl⟩ := proceed_dispatching hnext
    obtain ⟨outcomes, hcarries⟩ := Batch.exists_carries hlimit timeout
      ((retirees f.selector p.work).map (Dispatch.remove · true))
    exact ⟨_, .dispatched f hcarries (.finished _ _)⟩

theorem exists_completes_launch (hlimit : limit ≤ Batch.maxPermits) (timeout : Nat) (f : Fleet)
    (p : Pass) : ∃ d', Completes limit timeout (p.launch f) (some d') := by
  unfold launch
  split
  · exact exists_completes_proceed hlimit ..
  · obtain ⟨outcomes, hcarries⟩ := Batch.exists_carries hlimit timeout p.plan
    obtain ⟨d', hrest⟩ := exists_completes_proceed hlimit timeout f (p.foldAll f.wall outcomes)
    exact ⟨d', .dispatched f hcarries hrest⟩

/-- A pass gets as far as its first plan, unless the election that it holds fails. -/
theorem exists_planned {f : Fleet} (hd : ∀ i ∈ d.instances, f.registry.Knows i.nodeId)
    {election : Placement.Election} (helect : d.matched.length < d.scale →
      Placement.elect d.request f.tree f.registry.list = .ok election) :
    ∃ pass selector, start f d = .planned pass selector := by
  rw [start_eq]
  split
  · exact ⟨_, _, rfl⟩
  · next hlt =>
    have hdemand := demand_opened f d
    rw [dropLost_eq hd] at hdemand
    rw [(opened_copyOf f d).request, helect (by omega)]
    exact ⟨_, _, rfl⟩

/-- **The call for a pass returns** if its permits can be counted, unless the election that it holds
fails. -/
theorem exists_ensures (hlimit : limit ≤ Batch.maxPermits) (timeout : Nat) {f : Fleet}
    {d : Deployment} (hd : WellPlaced f.registry d) {election : Placement.Election}
    (helect : d.matched.length < d.scale →
      Placement.elect d.request f.tree f.registry.list = .ok election) :
    ∃ d', Ensures limit timeout f d (some d') := by
  obtain ⟨pass, selector, hstart⟩ := exists_planned hd.known helect
  obtain ⟨d', hcompletes⟩ := exists_completes_launch hlimit timeout f pass
  exact ⟨d', pass, selector, f, hstart, hcompletes⟩

/-- On every record a pass can be made in which every dispatch succeeds, unless its election fails. -/
theorem failed_or_exists_succeeds (f : Fleet) (d : Deployment) :
    (∃ work e, start f d = .failed work e) ∨ ∃ d', Succeeds f d d' := by
  cases hstart : start f d with
  | failed work e => exact .inl ⟨work, e, rfl⟩
  | planned pass selector =>
    have hlimit : 1 ≤ Batch.maxPermits := by decide
    obtain ⟨d', hcompletes⟩ := exists_completes_launch hlimit 0 f pass
    exact .inr ⟨d', pass, selector, f, hstart, hcompletes.prospers rfl⟩

end Pass

end FleetControl
