import FleetControl.Proofs.Pass.Convergence
import FleetControl.Proofs.Placement.Level

/-!
# Uniform spread stays uniform

Take regions and nodes that stay as they are, and passes that rank nodes by least load, choose
victims from the most loaded node and succeed in every dispatch; the clock and the cap may be others
in each pass. From a record without instances such passes, and between them requests that ask for
another scale alone (`Request.Rescales`), lead to the records `Pass.Spreading`.

All instances match, since the specification stays. So a pass either places one instance on each of
its targets or removes the victims, and then it ends (`Pass.Succeeds.adjusted`). Both keep the
instances on elected nodes and level over them (`Pass.Spread.passed`), and hence they are so all the
time (`Pass.spread_stays_uniform`).
-/

namespace FleetControl

/-- The other request asks for the same containers at the same places, on another scale. -/
structure Request.Rescales (r r' : Request) : Prop where
  container : r'.container = r.container
  region : r'.region = r.region
  requiredLabels : r'.requiredLabels = r.requiredLabels

namespace Placement

/-- The nodes that an election holds eligible; none if it fails. -/
def electedNodes (request : Request) (t : Region.Tree) (known : List Node) : List Node :=
  match elect request t known with
  | .ok election => election.nodes
  | .error _ => []

variable {request request' : Request} {t : Region.Tree} {known : List Node}

/-- The scale is nothing to an election. -/
theorem electedNodes_rescales (h : request.Rescales request') :
    electedNodes request' t known = electedNodes request t known := by
  have hwithin : electWithin request' t known = electWithin request t known := by
    funext scope scopeId
    have hpasses : passes request' = passes request := by
      funext node
      rw [passes, passes, h.requiredLabels]
    simp only [electWithin, hpasses]
  simp only [electedNodes, elect, h.region, hwithin, bind, Except.bind, pure, Except.pure, throw,
    throwThe, MonadExceptOf.throw]
  cases Region.Path.parse request.region with
  | error e => rfl
  | ok p =>
    dsimp only
    cases t.resolve p with
    | none =>
      -- whether a missing region is an error or not, nobody is elected
      dsimp only
      cases request.strictRegion <;> cases request'.strictRegion <;> rfl
    | some id => rfl

theorem electedNodes_of_elect {election : Election} (h : elect request t known = .ok election) :
    electedNodes request t known = election.nodes := by
  rw [electedNodes, h]

theorem mem_known_of_mem_electedNodes {node : Node} (h : node ∈ electedNodes request t known) :
    node ∈ known := by
  unfold electedNodes at h
  split at h
  · next election helect => exact mem_known_of_elected helect h
  · exact absurd h List.not_mem_nil

end Placement

namespace Pass

open Placement (Level electedNodes)

variable {d d' : Deployment}

/-! ### A pass on matched instances -/

/-- What a pass without trouble makes of a record whose instances all match: one more on each
target, or the victims less. -/
inductive Adjusted (f : Fleet) (d d' : Deployment) : Prop
  | created (election : Placement.Election) (created : List Instance) (demand : Nat) :
      Placement.elect d.request f.tree f.registry.list = .ok election →
      created.map (·.nodeId) =
        (f.selector.selectTargets election.nodes d.instances demand).1.nodes.map (·.id) →
      (∀ i ∈ created, i.specFingerprint = d.specFingerprint) →
      d'.instances = d.instances ++ created → Adjusted f d d'
  | removed (n : Nat) :
      d'.instances = (d.without (f.selector.selectVictims d.instances n)).instances →
      Adjusted f d d'

theorem Succeeds.adjusted {f : Fleet} (hknown : ∀ i ∈ d.instances, f.registry.Knows i.nodeId)
    (hall : ∀ i ∈ d.instances, d.isMatched i) (h : Succeeds f d d') : Adjusted f d d' := by
  obtain ⟨p, selector, g, hstart, hprospers⟩ := h
  obtain ⟨outcomes, now, g', hok, hrest⟩ := hprospers.launched
  obtain ⟨hcopy, hinst, hphase, hplan, -⟩ := start_planned hstart
  rw [dropLost_eq hknown] at hinst
  have hmatched : d.matched = d.instances := List.filter_eq_self.2 hall
  obtain ⟨q, now', report, hwork, hfinish⟩ :=
    hrest.retired (show (p.foldAll now outcomes).phase = .scale from hphase)
  obtain ⟨state, degraded, hd'⟩ := finish_eq hfinish
  have hqcopy : (p.foldAll now outcomes).work.CopyOf d :=
    (Course.opened.foldAll now outcomes [] (by rw [List.append_nil, hok.1])).copyOf.trans hcopy
  -- no instance is stale after the first plan, so the pass is over
  have hend (hmatch : ∀ i ∈ (p.foldAll now outcomes).work.instances, d.isMatched i) :
      d'.instances = (p.foldAll now outcomes).work.instances := by
    have hstale : (p.foldAll now outcomes).work.stale = [] := by
      rw [Deployment.stale, List.filter_eq_nil_iff]
      intro i hi
      rw [hqcopy.isMatched, hmatch i hi]
      exact Bool.false_ne_true
    rw [retirees_eq_nil _ hstale, Deployment.without_nil] at hwork
    rw [hd', ← hwork]
  cases hplan with
  | remove victims _ hvictims hplan _ =>
    rw [dropLost_eq hknown, hmatched] at hvictims
    rw [hplan] at hok
    have hfold := foldAll_removals now hok p
    rw [hfold, Deployment.without, hinst] at hend
    exact .removed _ (hvictims ▸ hend fun i hi => hall i (List.mem_filter.1 hi).1)
  | create election targets _ helect htargets hplan _ =>
    rw [dropLost_eq hknown, hmatched] at htargets
    rw [hplan] at hok
    obtain ⟨created, hnodes, hspec, hfold⟩ := foldAll_creations now hok p
    rw [hcopy.specFingerprint] at hspec
    rw [hfold, hinst] at hend
    refine .created election created _ helect (htargets ▸ hnodes) hspec (hend fun i hi => ?_)
    rcases List.mem_append.1 hi with hi | hi
    · exact hall i hi
    · exact beq_iff_eq.2 (hspec i hi)

/-! ### Runs -/

/-- On these regions and nodes a record has come from one without instances, by requests that ask
for another scale and passes in which every dispatch succeeds, or whose election fails. -/
inductive Spreading (tree : Region.Tree) (registry : Registry) : Deployment → Prop
  | begun {d : Deployment} :
      d.instances = [] → d.specFingerprint = d.request.container.fingerprint →
      Spreading tree registry d
  | updated {d : Deployment} {request : Request} :
      Spreading tree registry d → d.request.Rescales request →
      Spreading tree registry (d.update request)
  | passed {d d' : Deployment} {f : Fleet} :
      Spreading tree registry d → f.tree = tree → f.registry = registry →
      f.selector.policy = .spread → f.selector.victims = .mostLoadedOldestFirst →
      Succeeds f d d' → Spreading tree registry d'
  | failed {d work : Deployment} {f : Fleet} {e : Region.Error} :
      Spreading tree registry d → f.tree = tree → f.registry = registry →
      start f d = .failed work e → Spreading tree registry work

/-- The ids of the elected nodes. -/
def electedIds (tree : Region.Tree) (registry : Registry) (d : Deployment) : List String :=
  (electedNodes d.request tree registry.list).map (·.id)

/-- All instances match, are on elected nodes and are level over these. -/
structure Spread (tree : Region.Tree) (registry : Registry) (d : Deployment) : Prop where
  distinctIds : d.DistinctIds
  coherent : d.specFingerprint = d.request.container.fingerprint
  matched : ∀ i ∈ d.instances, d.isMatched i
  elected : ∀ i ∈ d.instances, i.nodeId ∈ electedIds tree registry d
  level : Level (electedIds tree registry d) d.instances

variable {tree : Region.Tree} {registry : Registry}

theorem Spread.wellPlaced (hr : registry.Keyed) (h : Spread tree registry d) :
    WellPlaced registry d := by
  refine ⟨h.distinctIds, fun i hi => ?_⟩
  obtain ⟨node, hnode, hid⟩ := List.mem_map.1 (h.elected i hi)
  rw [← hid]
  exact hr.knows_of_mem_list (Placement.mem_known_of_mem_electedNodes hnode)

theorem spread_of_instances_eq_nil (hd : d.instances = [])
    (hcoherent : d.specFingerprint = d.request.container.fingerprint) :
    Spread tree registry d := by
  have hnone (q : Instance → Prop) : ∀ i ∈ d.instances, q i := fun i hi => by
    rw [hd] at hi
    exact absurd hi List.not_mem_nil
  refine ⟨⟨?_, hnone _⟩, hcoherent, hnone _, hnone _, ?_⟩
  · rw [hd]
    exact List.nodup_nil
  · rw [hd]
    exact Placement.level_nil _

theorem Spread.update (h : Spread tree registry d) {request : Request}
    (hrequest : d.request.Rescales request) : Spread tree registry (d.update request) := by
  have hspec : (d.update request).specFingerprint = d.specFingerprint := by
    rw [h.coherent, ← hrequest.container]
    rfl
  have hids : electedIds tree registry (d.update request) = electedIds tree registry d := by
    have hsame : d.request.Rescales (d.update request).request :=
      ⟨hrequest.container, hrequest.region, hrequest.requiredLabels⟩
    rw [electedIds, electedIds, Placement.electedNodes_rescales hsame]
  refine ⟨h.distinctIds.of_sublist rfl (List.Sublist.refl _) rfl, rfl, fun i hi => ?_, ?_, ?_⟩
  · rw [Deployment.isMatched, hspec]
    exact h.matched i hi
  · rw [hids]
    exact h.elected
  · rw [hids]
    exact h.level

/-- A copy of a spread record is spread if its instances are, as the record sees them. -/
theorem Spread.copy (h : Spread tree registry d) (hcopy : d'.CopyOf d) (hids : d'.DistinctIds)
    (hinst : ∀ i ∈ d'.instances, d.isMatched i ∧ i.nodeId ∈ electedIds tree registry d)
    (hlevel : Level (electedIds tree registry d) d'.instances) : Spread tree registry d' := by
  have helected : electedIds tree registry d' = electedIds tree registry d := by
    rw [electedIds, electedIds, hcopy.request]
  refine ⟨hids, ?_, fun i hi => ?_, fun i hi => ?_, ?_⟩
  · rw [hcopy.specFingerprint, hcopy.request, h.coherent]
  · rw [hcopy.isMatched]
    exact (hinst i hi).1
  · rw [helected]
    exact (hinst i hi).2
  · rw [helected]
    exact hlevel

/-- The instances that a pass leaves match, are on elected nodes and are level over these. -/
theorem Spread.adjusted {f : Fleet} (h : Spread f.tree f.registry d)
    (hpolicy : f.selector.policy = .spread)
    (hvictims : f.selector.victims = .mostLoadedOldestFirst) (hadjusted : Adjusted f d d') :
    (∀ i ∈ d'.instances, d.isMatched i ∧ i.nodeId ∈ electedIds f.tree f.registry d) ∧
      Level (electedIds f.tree f.registry d) d'.instances := by
  have hold : ∀ i ∈ d.instances, d.isMatched i ∧ i.nodeId ∈ electedIds f.tree f.registry d :=
    fun i hi => ⟨h.matched i hi, h.elected i hi⟩
  cases hadjusted with
  | created election created demand helect hnodes hspec hinst =>
    have helected : electedIds f.tree f.registry d = election.nodes.map (·.id) := by
      rw [electedIds, Placement.electedNodes_of_elect helect]
    have hlevel := h.level
    rw [helected] at hold hlevel ⊢
    rw [hinst]
    refine ⟨fun i hi => ?_, hlevel.append hpolicy (Placement.nodup_elected helect) hnodes⟩
    rcases List.mem_append.1 hi with hi | hi
    · exact hold i hi
    · -- the new instances are on targets
      have hmem := List.mem_map_of_mem (f := (·.nodeId)) hi
      rw [hnodes] at hmem
      have hsub := (f.selector.selectTargets_subperm election.nodes d.instances demand).trans
        List.filter_sublist.subperm
      exact ⟨beq_iff_eq.2 (hspec i hi), List.map_subset _ hsub.subset hmem⟩
  | removed n hinst =>
    -- the victims and those left are the instances, in both accounts
    obtain ⟨left, hleft, hlevel⟩ := Placement.exists_left_drainMostLoaded h.level n
    have hgone := Deployment.perm_without h.distinctIds
      (Placement.VictimPolicy.choose_subperm .mostLoadedOldestFirst d.instances n)
    rw [hinst, Placement.Selector.selectVictims, hvictims]
    exact ⟨fun i hi => hold i (List.mem_filter.1 hi).1,
      hlevel.of_perm ((List.perm_append_left_iff _).1 (hleft.symm.trans hgone))⟩

/-- **A pass keeps the spread.** -/
theorem Spread.passed {f : Fleet} (hr : f.registry.Keyed) (h : Spread f.tree f.registry d)
    (hpolicy : f.selector.policy = .spread)
    (hvictims : f.selector.victims = .mostLoadedOldestFirst) (hpass : Succeeds f d d') :
    Spread f.tree f.registry d' := by
  have hplaced := h.wellPlaced hr
  have hachieved := hpass.achieved hr hplaced
  obtain ⟨hinst, hlevel⟩ :=
    h.adjusted hpolicy hvictims (hpass.adjusted hplaced.known h.matched)
  exact h.copy hachieved.copyOf hachieved.placed.distinctIds hinst hlevel

theorem Spreading.spread (hr : registry.Keyed) (h : Spreading tree registry d) :
    Spread tree registry d := by
  induction h with
  | begun hd hcoherent => exact spread_of_instances_eq_nil hd hcoherent
  | updated _ hrequest ih => exact ih.update hrequest
  | passed _ htree hregistry hpolicy hvictims hpass ih =>
    subst htree hregistry
    exact ih.passed hr hpolicy hvictims hpass
  | failed _ htree hregistry hstart ih =>
    subst htree hregistry
    obtain ⟨hcopy, hinst, hseq⟩ := start_failed hstart
    rw [dropLost_eq (ih.wellPlaced hr).known] at hinst
    refine ih.copy hcopy ?_ (hinst ▸ fun i hi => ⟨ih.matched i hi, ih.elected i hi⟩)
      (hinst ▸ ih.level)
    exact ih.distinctIds.of_sublist hcopy.id (hinst ▸ List.Sublist.refl _) hseq

/-- **Uniform spread stays uniform.** After any such requests and passes all instances are on elected
nodes, and of any two elected nodes none hosts more than one instance more than the other; and another
such pass can be made, unless its election fails. -/
theorem spread_stays_uniform (hr : registry.Keyed) (h : Spreading tree registry d) :
    (∀ i ∈ d.instances,
      ∃ node ∈ electedNodes d.request tree registry.list, node.id = i.nodeId) ∧
    (∀ a ∈ electedNodes d.request tree registry.list,
      ∀ b ∈ electedNodes d.request tree registry.list,
        d.instances.countP (·.nodeId == a.id) ≤ d.instances.countP (·.nodeId == b.id) + 1) ∧
    ∀ f, (∃ work e, start f d = .failed work e) ∨ ∃ d', Succeeds f d d' := by
  have hspread := h.spread hr
  refine ⟨fun i hi => List.mem_map.1 (hspread.elected i hi), fun a ha b hb => ?_,
    fun f => failed_or_exists_succeeds f d⟩
  exact hspread.level _ (List.mem_map_of_mem ha) _ (List.mem_map_of_mem hb)

/-- The record `growing` before its first instance. -/
def unborn : Deployment :=
  { growing with instances := [], specFingerprint := growing.request.container.fingerprint }

/-- Of three instances that are wanted a pass places one on each of two nodes. -/
theorem spread_stays_uniform_unborn : ∃ d, Succeeds pair unborn d ∧
    Spreading pair.tree pair.registry d ∧ d.matched.length = 2 ∧
    (∀ i ∈ d.instances,
      ∃ node ∈ electedNodes d.request pair.tree pair.registry.list, node.id = i.nodeId) ∧
    ∀ a ∈ electedNodes d.request pair.tree pair.registry.list,
      ∀ b ∈ electedNodes d.request pair.tree pair.registry.list,
        d.instances.countP (·.nodeId == a.id) ≤ d.instances.countP (·.nodeId == b.id) + 1 := by
  have hkeyed : pair.registry.Keyed := Registry.keyed_ofNodes _
  have hbegun : Spreading pair.tree pair.registry unborn := .begun rfl rfl
  have hplaced := (hbegun.spread hkeyed).wellPlaced hkeyed
  obtain ⟨election, helect, hlength⟩ := exists_elected_growing
  have hlimit : 1 ≤ Batch.maxPermits := by decide
  obtain ⟨d, hensures⟩ := exists_ensures hlimit 30 hplaced fun _ => helect
  have hpass := hensures.succeeds
  obtain ⟨election', targets, helect', -, htargets, hmatched, -⟩ :=
    (hpass.achieved hkeyed hplaced).created (by decide)
  obtain rfl := Except.ok.inj (helect.symm.trans helect')
  rw [candidates_of_uncapped rfl, hlength] at htargets
  have hrun := hbegun.passed rfl rfl rfl rfl hpass
  obtain ⟨helected, hlevel, -⟩ := spread_stays_uniform hkeyed hrun
  refine ⟨d, hpass, hrun, ?_, helected, hlevel⟩
  rw [hmatched, htargets]
  rfl

end Pass

end FleetControl
