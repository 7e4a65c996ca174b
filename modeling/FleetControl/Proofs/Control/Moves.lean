import FleetControl.Control.Step
import FleetControl.Proofs.Dispatch.Batch
import FleetControl.Proofs.Pass.Course

/-!
# What a step of the control plane does

`Control.step` is taken apart once, and invariants are proved from its cases.

* `Control.Moves s l s'` lists what a step from `s` to `s'` under the label `l` can be
  (`Control.moves_of_step`);
* a process that holds a lock and begins or goes on with a pass takes a *turn* (`Control.Turn`),
  after which `Control.Follow` says where it comes to;
* the lemmas on `State.setStage`, `State.mapRecord`, `State.spawn` and `State.release` say what
  becomes of every slot and every process;
* regions, nodes and settings change with the world alone (`Control.sameWorld_step`), and the
  selector when a pass draws (`Control.selector_step`).
-/

namespace FleetControl

namespace Control

namespace State

variable (s : State)

/-! ### Changes of the state -/

/-- Change the record of a slot. -/
def mapRecord (i : SlotId) (f : Deployment → Deployment) : State :=
  s.modifySlot i fun sl => { sl with record := f sl.record }

/-- Add a slot for a record and list it. -/
def found (d : Deployment) : State :=
  { s with slots := s.slots ++ [{ record := d }], index := s.index.insert d.id s.slots.length }

/-- The batch of a plan under the settings. -/
def batchOf (plan : List Dispatch) : Batch :=
  .ofPlan s.settings.maxConcurrentDispatches.toNat s.settings.dispatchTimeoutMs.toNat plan

/-- The record of a request that founds a deployment. -/
def newRecord (request : Request) (fresh : String) : Deployment :=
  .new (chooseId request fresh) request s.settings.errorLogCapacity.toNat s.wall

/-- The processes that wait for a slot. -/
def queue (i : SlotId) : List ProcId := (s.slots[i]?).elim [] (·.queue)

/-- The process that holds a slot. -/
def holder (i : SlotId) : Option ProcId := (s.slots[i]?).bind (·.holder)

variable {s}

theorem procs_setStage (p q : ProcId) (stage : Stage) :
    (s.setStage p stage).procs[q]? =
      if p = q then (s.procs[q]?).map fun proc => { proc with stage } else s.procs[q]? := by
  rw [setStage, Array.getElem?_modify]

theorem procs_setStage_self {p : ProcId} {errand : Errand} {old : Stage}
    (h : s.procs[p]? = some ⟨errand, old⟩) (stage : Stage) :
    (s.setStage p stage).procs[p]? = some ⟨errand, stage⟩ := by
  rw [procs_setStage, if_pos rfl, h]
  rfl

theorem procs_setStage_of_ne {p q : ProcId} (h : p ≠ q) (stage : Stage) :
    (s.setStage p stage).procs[q]? = s.procs[q]? := by
  rw [procs_setStage, if_neg h]

theorem procs_spawn (errand : Errand) (stage : Stage) (q : ProcId) :
    (s.spawn errand stage).1.procs[q]? =
      if q = s.procs.size then some ⟨errand, stage⟩ else s.procs[q]? :=
  Array.getElem?_push

theorem slots_modifySlot (i j : SlotId) (f : Slot → Slot) :
    (s.modifySlot i f).slots[j]? = if i = j then (s.slots[j]?).map f else s.slots[j]? := by
  rw [modifySlot, List.getElem?_modify]
  split <;> simp

theorem slots_found (d : Deployment) (j : Nat) :
    (s.found d).slots[j]? = if j = s.slots.length then some { record := d } else s.slots[j]? := by
  rw [found, List.getElem?_append]
  split
  · next hlt => rw [if_neg (Nat.ne_of_lt hlt)]
  · next hge =>
    split
    · next h => simp [h]
    · next hne =>
      rw [List.getElem?_eq_none (by simp only [List.length_singleton]; omega),
        List.getElem?_eq_none (Nat.le_of_not_lt hge)]

/-- A slot whose lock is given back is handed to the first that waits. -/
theorem slots_release (i j : SlotId) :
    (s.release i).slots[j]? =
      if i = j then (s.slots[j]?).map fun sl =>
        { sl with holder := sl.queue.head?, queue := sl.queue.tail }
      else s.slots[j]? := by
  unfold release
  split
  · next h =>
    split
    · next hij => rw [← hij, h]; rfl
    · rfl
  · next record cancelled holder h =>
    rw [slots_modifySlot]
    split
    · next hij => rw [← hij, h]; rfl
    · rfl
  · next record cancelled holder next rest h =>
    rw [setStage, slots_modifySlot]
    split
    · next hij => rw [← hij, h]; rfl
    · rfl

theorem length_release (i : SlotId) : (s.release i).slots.length = s.slots.length := by
  unfold release
  split
  · rfl
  · exact List.length_modify ..
  · exact List.length_modify ..

theorem procs_release (i : SlotId) (q : ProcId) :
    (s.release i).procs[q]? =
      if (s.queue i).head? = some q then (s.procs[q]?).map fun proc =>
        { proc with stage := .admitted i }
      else s.procs[q]? := by
  unfold release queue
  split
  · next h => rw [h]; rfl
  · next h => rw [h]; rfl
  · next next rest h =>
    rw [procs_setStage, h]
    simp only [Option.elim_some, List.head?_cons, Option.some.injEq]
    rfl

/-! ### Parts that a change leaves alone -/

theorem release_eq (i : SlotId) : ∃ slots procs, s.release i = { s with slots, procs } := by
  unfold release
  split
  · exact ⟨s.slots, s.procs, rfl⟩
  · exact ⟨_, s.procs, rfl⟩
  · exact ⟨_, _, rfl⟩

theorem endProc_eq (p : ProcId) (i : SlotId) (answer : Answer) :
    ∃ slots procs, s.endProc p i answer = { s with slots, procs } := by
  obtain ⟨slots, procs, h⟩ := (s.setStage p (.ended answer)).release_eq i
  exact ⟨slots, procs, h⟩

/-- A sweep starts its processes one after the other. -/
theorem sweep_induction {P : State → Prop} (h : P s)
    (hspawn : ∀ s' id i, P s' → s'.index = s.index → s.index.get? id = some i →
      P (s'.spawn (.sweep id) (.approach i)).1) : P s.sweep.1 := by
  have hmem : ∀ e ∈ s.index.toList, s.index.get? e.1 = some e.2 :=
    fun e he => SortedMap.mem_toList.1 he
  suffices ∀ (entries : List (String × SlotId)) (started : List (String × ProcId)) (s' : State),
      (∀ e ∈ entries, s.index.get? e.1 = some e.2) → P s' → s'.index = s.index →
      P (entries.foldl (fun swept e =>
        ((swept.1.spawn (.sweep e.1) (.approach e.2)).1,
          swept.2 ++ [(e.1, (swept.1.spawn (.sweep e.1) (.approach e.2)).2)]))
        (s', started)).1 from this _ [] s hmem h rfl
  intro entries
  induction entries with
  | nil => exact fun _ _ _ h _ => h
  | cons e rest ih =>
    intro started s' hmem h hindex
    refine ih _ _ (fun e' he' => hmem e' (List.mem_cons_of_mem _ he')) ?_ hindex
    exact hspawn s' e.1 e.2 h hindex (hmem e List.mem_cons_self)

end State

/-! ### Turns -/

/-- The process is not the end of a deployment. -/
def Errand.IsPass (errand : Errand) : Prop := ∀ id, errand ≠ .delete id

/-- A process that holds a lock begins a pass, begins to drain, or takes the outcomes of a plan that
is carried out. What comes next is worked out on the state given. -/
inductive Turn (s : State) (p : ProcId) : Errand → SlotId → State → Progress → Prop
  | opened {errand : Errand} {i : SlotId} {sl : Slot} {pass : Pass}
      {selector : Placement.Selector} :
      s.procs[p]? = some ⟨errand, .admitted i⟩ → errand.IsPass → s.slots[i]? = some sl →
      Pass.start s.fleet sl.record.begun = .planned pass selector →
      Turn s p errand i { s.mapRecord i fun _ => sl.record.begun with selector }
        (pass.launch { s.fleet with selector })
  | drained {id : String} {i : SlotId} {sl : Slot} :
      s.procs[p]? = some ⟨.delete id, .admitted i⟩ → s.slots[i]? = some sl →
      Turn s p (.delete id) i s ((Pass.startDrain s.wall sl.record).launch s.fleet)
  | concluded {errand : Errand} {i : SlotId} {sl : Slot} {pass : Pass} {batch : Batch} :
      s.procs[p]? = some ⟨errand, .working i pass batch⟩ → s.slots[i]? = some sl →
      batch.handOut (State.isCancelled errand sl) = none → batch.isDone →
      Turn s p errand i s (pass.conclude s.fleet batch.outcomes)

/-- Where a process comes to that takes a turn. -/
inductive Follow (s : State) (p : ProcId) (errand : Errand) (i : SlotId) : Progress → State → Prop
  | dispatched (pass : Pass) : (s.batchOf pass.plan).permits ≤ Batch.maxPermits →
      Follow s p errand i (.dispatching pass)
        (s.setStage p (.working i pass (s.batchOf pass.plan)))
  | aborted (pass : Pass) : Batch.maxPermits < (s.batchOf pass.plan).permits →
      Follow s p errand i (.dispatching pass) (s.endProc p i .aborted)
  | published (work : Deployment) (report : Report) : errand.IsPass →
      Follow s p errand i (.finished work report)
        ((s.mapRecord i (·.absorb work)).endProc p i (State.answerOf errand work report))
  | deleted (id : String) (work : Deployment) (report : Report) : errand = .delete id →
      Follow s p errand i (.finished work report) (s.endProc p i (.deleted work))

theorem follow_of_eq {s s' : State} {p : ProcId} {errand : Errand} {i : SlotId}
    {progress : Progress} (h : s.follow p errand i progress = s') :
    Follow s p errand i progress s' := by
  subst h
  cases progress with
  | dispatching pass =>
    simp only [State.follow]
    split
    · next hlt => exact .aborted pass hlt
    · next hle => exact .dispatched pass (Nat.le_of_not_lt hle)
  | finished work report =>
    cases errand with
    | delete id => exact .deleted id work report rfl
    | _ => exact .published work report (by rintro id ⟨⟩)

/-! ### Steps -/

/-- What a step can be. -/
inductive Moves (s : State) : Label → State → Prop
  | refused {request : Request} {fresh : String} (e : Region.Error) :
      s.accept request fresh = .error e →
      Moves s (.submit request fresh) (s.spawn (.submit fresh) (.ended (.failed (.region e)))).1
  | revised {request : Request} {fresh id : String} {i : SlotId} :
      s.accept request fresh = .ok (s.mapRecord i (·.update request), id) →
      s.index.get? id = some i →
      Moves s (.submit request fresh)
        ((s.mapRecord i (·.update request)).spawn (.submit id) (.lookup id)).1
  | founded {request : Request} {fresh : String} :
      s.accept request fresh =
        .ok (s.found (s.newRecord request fresh), (s.newRecord request fresh).id) →
      s.existing request = none →
      Moves s (.submit request fresh)
        ((s.found (s.newRecord request fresh)).spawn (.submit (s.newRecord request fresh).id)
          (.lookup (s.newRecord request fresh).id)).1
  | triggered (id : String) : Moves s (.trigger id) (s.spawn (.trigger id) (.lookup id)).1
  | unknown {id : String} : s.index.get? id = none →
      Moves s (.delete id) (s.spawn (.delete id) (.ended (.failed (.deploymentNotFound id)))).1
  | unlisted {id : String} {i : SlotId} : s.index.get? id = some i →
      Moves s (.delete id)
        (({ s with index := s.index.erase id } : State).spawn (.delete id) (.flag i)).1
  | swept : Moves s .sweep s.sweep.1
  | missed {p : ProcId} {errand : Errand} {id : String} :
      s.procs[p]? = some ⟨errand, .lookup id⟩ → s.index.get? id = none →
      Moves s (.advance p) (s.setStage p (.ended (.failed (.deploymentNotFound id))))
  | looked {p : ProcId} {errand : Errand} {id : String} {i : SlotId} :
      s.procs[p]? = some ⟨errand, .lookup id⟩ → s.index.get? id = some i →
      Moves s (.advance p) (s.setStage p (.approach i))
  | flagged {p : ProcId} {errand : Errand} {i : SlotId} :
      s.procs[p]? = some ⟨errand, .flag i⟩ →
      Moves s (.advance p)
        ((s.modifySlot i fun sl => { sl with cancelled := true }).setStage p (.approach i))
  | locked {p : ProcId} {errand : Errand} {i : SlotId} {sl : Slot} :
      s.procs[p]? = some ⟨errand, .approach i⟩ → s.slots[i]? = some sl → sl.holder = none →
      Moves s (.advance p)
        ((s.modifySlot i fun sl => { sl with holder := some p }).setStage p (.admitted i))
  | waited {p holder : ProcId} {errand : Errand} {i : SlotId} {sl : Slot} :
      s.procs[p]? = some ⟨errand, .approach i⟩ → s.slots[i]? = some sl → sl.holder = some holder →
      Moves s (.advance p)
        ((s.modifySlot i fun sl => { sl with queue := sl.queue ++ [p] }).setStage p (.queued i))
  | unplaced {p : ProcId} {errand : Errand} {i : SlotId} {sl : Slot} {work : Deployment}
      {e : Region.Error} :
      s.procs[p]? = some ⟨errand, .admitted i⟩ → errand.IsPass → s.slots[i]? = some sl →
      Pass.start s.fleet sl.record.begun = .failed work e →
      Moves s (.advance p)
        (((s.mapRecord i fun _ => sl.record.begun).mapRecord i (·.absorb work)).endProc p i
          (.failed (.region e)))
  | turned {p : ProcId} {errand : Errand} {i : SlotId} {s₁ s' : State} {progress : Progress} :
      Turn s p errand i s₁ progress → Follow s₁ p errand i progress s' → Moves s (.advance p) s'
  | issued {p : ProcId} {errand : Errand} {i : SlotId} {sl : Slot} {pass : Pass}
      {batch batch' : Batch} :
      s.procs[p]? = some ⟨errand, .working i pass batch⟩ → s.slots[i]? = some sl →
      batch.handOut (State.isCancelled errand sl) = some batch' →
      Moves s (.advance p) (s.setStage p (.working i pass batch'))
  | called {l : Label} {p : ProcId} {errand : Errand} {i : SlotId} {pass : Pass}
      {batch batch' : Batch} {engine : Engine} {k : Nat} :
      s.procs[p]? = some ⟨errand, .working i pass batch⟩ →
      l = .startCall p k ∧ batch.start k s.now s.engine = some (batch', engine) ∨
        l = .settleCall p k ∧ batch.settle k s.now s.engine = some (batch', engine) →
      Moves s l (({ s with engine } : State).setStage p (.working i pass batch'))
  | elapsed (now : Nat) : s.now ≤ now → Moves s (.elapse now) { s with now }
  | changed (c : Change) : Moves s (.change c) (c.apply s)

theorem existing_eq_some {s : State} {request : Request} {id : String} {i : SlotId}
    (h : s.existing request = some (id, i)) :
    request.deploymentId = some id ∧ s.index.get? id = some i := by
  unfold State.existing at h
  cases hid : request.deploymentId with
  | none => simp [hid] at h
  | some id' =>
    cases hget : s.index.get? id' with
    | none => simp [hid, hget] at h
    | some i' =>
      simp only [hid, hget, Option.pure_def, Option.bind_eq_bind, Option.bind_some,
        Option.some.injEq, Prod.mk.injEq] at h
      obtain ⟨rfl, rfl⟩ := h
      exact ⟨rfl, hget⟩

theorem moves_submit (s : State) (request : Request) (fresh : String) :
    Moves s (.submit request fresh) (s.submit request fresh).1 := by
  unfold State.submit
  cases haccept : s.accept request fresh with
  | error e => exact .refused e haccept
  | ok result =>
    have hresult := haccept
    unfold State.accept at hresult
    cases hvalid : s.validate request with
    | error e => rw [hvalid] at hresult; cases hresult
    | ok _ =>
      rw [hvalid] at hresult
      cases hexist : s.existing request with
      | some found =>
        obtain ⟨id, i⟩ := found
        rw [hexist] at hresult
        cases hresult
        exact .revised haccept (existing_eq_some hexist).2
      | none =>
        rw [hexist] at hresult
        simp only [State.prepare, hvalid] at hresult
        cases hresult
        exact .founded haccept hexist

theorem moves_startPass {s : State} {p : ProcId} {errand : Errand} {i : SlotId} {sl : Slot}
    (hproc : s.procs[p]? = some ⟨errand, .admitted i⟩) (hpass : errand.IsPass)
    (hslot : s.slots[i]? = some sl) : Moves s (.advance p) (s.startPass p errand i sl) := by
  -- the published record is marked before the pass begins
  have hopened : (s.modifySlot i fun sl' => { sl' with record := sl.record.begun }) =
      s.mapRecord i fun _ => sl.record.begun := rfl
  have hfleet : (s.mapRecord i fun _ => sl.record.begun).fleet = s.fleet := rfl
  unfold State.startPass
  dsimp only
  rw [← Deployment.begun, hopened, hfleet]
  cases hstart : Pass.start s.fleet sl.record.begun with
  | failed work e => exact .unplaced hproc hpass hslot hstart
  | planned pass selector => exact .turned (.opened hproc hpass hslot hstart) (follow_of_eq rfl)

theorem moves_advance {s s' : State} {p : ProcId} (h : s.advance p = some s') :
    Moves s (.advance p) s' := by
  unfold State.advance at h
  cases hproc : s.procs[p]? with
  | none => rw [hproc] at h; cases h
  | some proc =>
    obtain ⟨errand, stage⟩ := proc
    rw [hproc] at h
    cases stage with
    | lookup id =>
      simp only [Option.bind_eq_bind, Option.bind_some] at h
      split at h
      · next hget => exact Option.some.inj h ▸ .missed hproc hget
      · next i hget => exact Option.some.inj h ▸ .looked hproc hget
    | flag i => exact Option.some.inj h ▸ .flagged hproc
    | approach i =>
      simp only [Option.bind_eq_bind, Option.bind_some] at h
      obtain ⟨sl, hslot, h⟩ := Option.bind_eq_some_iff.1 h
      rw [← Option.some.inj h, State.enqueue]
      split
      · next hholder => exact .locked hproc hslot hholder
      · next holder hholder => exact .waited hproc hslot hholder
    | queued i => cases h
    | admitted i =>
      simp only [Option.bind_eq_bind, Option.bind_some] at h
      obtain ⟨sl, hslot, h⟩ := Option.bind_eq_some_iff.1 h
      cases errand with
      | delete id =>
        exact .turned (.drained hproc hslot) (follow_of_eq (Option.some.inj h))
      | _ => exact Option.some.inj h ▸ moves_startPass hproc (by rintro id ⟨⟩) hslot
    | working i pass batch =>
      simp only [Option.bind_eq_bind, Option.bind_some] at h
      obtain ⟨sl, hslot, h⟩ := Option.bind_eq_some_iff.1 h
      unfold State.proceed at h
      split at h
      · next batch' hout => exact Option.some.inj h ▸ .issued hproc hslot hout
      · next hout =>
        split at h
        · next hdone =>
          exact .turned (.concluded hproc hslot hout hdone) (follow_of_eq (Option.some.inj h))
        · cases h
    | ended answer => cases h

theorem moveCall_eq_some {s s' : State} {p : ProcId}
    {move : Batch → Engine → Option (Batch × Engine)} (h : s.moveCall p move = some s') :
    ∃ errand i pass batch batch' engine, s.procs[p]? = some ⟨errand, .working i pass batch⟩ ∧
      move batch s.engine = some (batch', engine) ∧
      s' = ({ s with engine } : State).setStage p (.working i pass batch') := by
  unfold State.moveCall at h
  cases hproc : s.procs[p]? with
  | none => rw [hproc] at h; cases h
  | some proc =>
    obtain ⟨errand, stage⟩ := proc
    rw [hproc] at h
    cases stage with
    | working i pass batch =>
      simp only [Option.bind_eq_bind, Option.bind_some] at h
      obtain ⟨⟨batch', engine⟩, hres, h⟩ := Option.bind_eq_some_iff.1 h
      exact ⟨errand, i, pass, batch, batch', engine, rfl, hres, (Option.some.inj h).symm⟩
    | _ => cases h

theorem callMove_of_called {l : Label} {p : ProcId} {k now : Nat} {b b' : Batch} {e e' : Engine}
    (h : l = .startCall p k ∧ b.start k now e = some (b', e') ∨
      l = .settleCall p k ∧ b.settle k now e = some (b', e')) : b.CallMove e k b' e' :=
  h.elim (fun h => Batch.callMove_start h.2) fun h => Batch.callMove_settle h.2

/-- Every step is one of the moves. -/
theorem moves_of_step {s s' : State} {l : Label} (h : step s l = some s') : Moves s l s' := by
  cases l with
  | submit request fresh => exact Option.some.inj h ▸ moves_submit s request fresh
  | trigger id => exact Option.some.inj h ▸ .triggered id
  | delete id =>
    rw [← Option.some.inj h, State.delete]
    split
    · next hget => exact .unknown hget
    · next i hget => exact .unlisted hget
  | sweep => exact Option.some.inj h ▸ .swept
  | advance p => exact moves_advance h
  | startCall p k =>
    obtain ⟨_, _, _, _, _, _, hproc, hres, rfl⟩ := moveCall_eq_some h
    exact .called hproc (.inl ⟨rfl, hres⟩)
  | settleCall p k =>
    obtain ⟨_, _, _, _, _, _, hproc, hres, rfl⟩ := moveCall_eq_some h
    exact .called hproc (.inr ⟨rfl, hres⟩)
  | elapse now =>
    simp only [step] at h
    split at h
    · next hle => exact Option.some.inj h ▸ .elapsed now hle
    · cases h
  | change c => exact Option.some.inj h ▸ .changed c

/-! ### What only the world changes -/

/-- Regions, nodes and settings are the same, and calls to the engine meet with the same. -/
structure SameWorld (s s' : State) : Prop where
  tree : s'.tree = s.tree
  registry : s'.registry = s.registry
  settings : s'.settings = s.settings
  nodes : s.engine.SameNodes s'.engine

theorem SameWorld.refl (s : State) : SameWorld s s := ⟨rfl, rfl, rfl, .refl _⟩

theorem SameWorld.trans {s s' s'' : State} (h : SameWorld s s') (h' : SameWorld s' s'') :
    SameWorld s s'' :=
  ⟨h'.tree.trans h.tree, h'.registry.trans h.registry, h'.settings.trans h.settings,
    h.nodes.trans h'.nodes⟩

theorem sameWorld_endProc (s : State) (p : ProcId) (i : SlotId) (answer : Answer) :
    SameWorld s (s.endProc p i answer) := by
  obtain ⟨slots, procs, heq⟩ := s.endProc_eq p i answer
  rw [heq]
  exact ⟨rfl, rfl, rfl, .refl _⟩

theorem Turn.sameWorld {s s₁ : State} {p : ProcId} {errand : Errand} {i : SlotId}
    {progress : Progress} (h : Turn s p errand i s₁ progress) : SameWorld s s₁ := by
  cases h <;> exact ⟨rfl, rfl, rfl, .refl _⟩

/-- **Only changes of the world change the world.** -/
theorem sameWorld_step {s s' : State} {l : Label} (h : step s l = some s') :
    SameWorld s s' ∨ ∃ c, l = .change c ∧ s' = c.apply s := by
  have hmap : ∀ (s : State) i f, SameWorld s (s.mapRecord i f) := fun s _ _ =>
    ⟨rfl, rfl, rfl, .refl _⟩
  cases moves_of_step h with
  | swept =>
    exact .inl (State.sweep_induction (.refl s) fun _ _ _ hs' _ _ =>
      hs'.trans ⟨rfl, rfl, rfl, .refl _⟩)
  | @unplaced p errand i sl work e _ _ _ _ =>
    exact .inl ((hmap s i fun _ => sl.record.begun).trans
      ((hmap _ i (·.absorb work)).trans (sameWorld_endProc ..)))
  | @turned p errand i s₁ s' progress hturn hfollow =>
    refine .inl (hturn.sameWorld.trans ?_)
    cases hfollow with
    | dispatched pass _ => exact ⟨rfl, rfl, rfl, .refl _⟩
    | aborted pass _ => exact sameWorld_endProc ..
    | published work report _ => exact (hmap s₁ i (·.absorb work)).trans (sameWorld_endProc ..)
    | deleted id work report _ => exact sameWorld_endProc ..
  | called _ hcall => exact .inl ⟨rfl, rfl, rfl, (callMove_of_called hcall).sameNodes⟩
  | changed c => exact .inr ⟨c, rfl, rfl⟩
  | _ => exact .inl ⟨rfl, rfl, rfl, .refl _⟩

/-! ### The selector -/

/-- The selector changes when a pass begins and draws. -/
theorem Turn.selector {s s₁ : State} {p : ProcId} {errand : Errand} {i : SlotId}
    {progress : Progress} (h : Turn s p errand i s₁ progress) : s₁.selector = s.selector ∨
    ∃ d pass, Pass.start s.fleet d = .planned pass s₁.selector := by
  cases h with
  | @opened _ _ sl pass selector _ _ _ hstart => exact .inr ⟨_, pass, hstart⟩
  | drained _ _ => exact .inl rfl
  | concluded _ _ _ _ => exact .inl rfl

theorem selector_endProc (s : State) (p : ProcId) (i : SlotId) (answer : Answer) :
    (s.endProc p i answer).selector = s.selector := by
  obtain ⟨slots, procs, heq⟩ := s.endProc_eq p i answer
  rw [heq]

theorem selector_step {s s' : State} {l : Label} (hstep : step s l = some s') :
    s'.selector = s.selector ∨ ∃ d pass, Pass.start s.fleet d = .planned pass s'.selector := by
  cases moves_of_step hstep with
  | swept =>
    exact .inl (State.sweep_induction (P := fun s' => s'.selector = s.selector) rfl
      fun _ _ _ hs' _ _ => hs')
  | unplaced _ _ _ _ => exact .inl (selector_endProc ..)
  | turned hturn hfollow =>
    cases hfollow with
    | dispatched pass _ => exact hturn.selector
    | aborted pass _ =>
      rw [selector_endProc]
      exact hturn.selector
    | published work report _ =>
      rw [selector_endProc]
      exact hturn.selector
    | deleted id work report _ =>
      rw [selector_endProc]
      exact hturn.selector
  | changed c => cases c <;> exact .inl rfl
  | _ => exact .inl rfl

end Control

end FleetControl
