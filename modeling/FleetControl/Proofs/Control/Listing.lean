import FleetControl.Proofs.Control.Locks

/-!
# Listed and deleted deployments

A slot is *owned* (`State.Owned`) as long as its deployment is listed or being deleted. Every slot
is listed under one id at most, one process at most deletes it, and no more than its flag is to be
set before it counts as cancelled (`Control.Listing`). A slot that is not owned any more stays so,
and passes on it are cancelled.

All this holds as long as requests without an id are given one that is not in use
(`Control.FreshId`).
-/

namespace FleetControl

namespace Control

/-- The process has yet to look up or to flag a slot. -/
def Stage.isEntry : Stage → Bool
  | .lookup _ | .flag _ => true
  | _ => false

namespace State

/-- The deployment of the slot is listed. -/
def Listed (s : State) (i : SlotId) : Prop := ∃ id, s.index.get? id = some i

/-- The process deletes the deployment of the slot and is not over. -/
def Deletes (s : State) (p : ProcId) (i : SlotId) : Prop :=
  ∃ errand stage, s.procs[p]? = some ⟨errand, stage⟩ ∧ ¬ errand.IsPass ∧ stage.slot? = some i

/-- The process has yet to set the flag of the slot. -/
def Flags (s : State) (p : ProcId) (i : SlotId) : Prop :=
  ∃ errand, s.procs[p]? = some ⟨errand, .flag i⟩

/-- The deployment of the slot is listed or being deleted. -/
def Owned (s : State) (i : SlotId) : Prop := s.Listed i ∨ ∃ p, s.Deletes p i

variable {s s' : State} {p q : ProcId} {i j : SlotId} {errand : Errand} {old new : Stage}

theorem deletes_setStage (hp : s.procs[p]? = some ⟨errand, old⟩)
    (hslot : ¬ errand.IsPass → new.slot? = old.slot?) :
    (s.setStage p new).Deletes q j ↔ s.Deletes q j := by
  unfold Deletes
  by_cases hpq : p = q
  · subst hpq
    rw [procs_setStage_self hp, hp]
    constructor
    · rintro ⟨_, _, ⟨⟩, hpass, hj⟩
      exact ⟨_, _, rfl, hpass, hslot hpass ▸ hj⟩
    · rintro ⟨_, _, ⟨⟩, hpass, hj⟩
      exact ⟨_, _, rfl, hpass, hslot hpass ▸ hj⟩
  · rw [procs_setStage_of_ne hpq]

/-- A process is at an entry only if it was there before. -/
theorem entry_of_setStage (hp : s.procs[p]? = some ⟨errand, old⟩) (hnew : new.isEntry = false)
    {errand' : Errand} {stage : Stage} (hentry : stage.isEntry = true)
    (hq : (s.setStage p new).procs[q]? = some ⟨errand', stage⟩) :
    s.procs[q]? = some ⟨errand', stage⟩ := by
  by_cases hpq : p = q
  · subst hpq
    rw [procs_setStage_self hp] at hq
    cases hq
    rw [hnew] at hentry
    cases hentry
  · rwa [procs_setStage_of_ne hpq] at hq

theorem deletes_spawn (hslot : errand.IsPass ∨ new.slot? = none) :
    (s.spawn errand new).1.Deletes q j ↔ s.Deletes q j := by
  unfold Deletes
  rw [procs_spawn]
  by_cases hq : q = s.procs.size
  · rw [if_pos hq, hq, Array.getElem?_size]
    constructor
    · rintro ⟨_, _, ⟨⟩, hpass, hj⟩
      rcases hslot with hslot | hslot
      · exact absurd hslot hpass
      · rw [hslot] at hj
        cases hj
    · rintro ⟨_, _, ⟨⟩, _⟩
  · rw [if_neg hq]

theorem deletes_spawn_flag (id : String) :
    (s.spawn (.delete id) (.flag i)).1.Deletes q j ↔
      q = s.procs.size ∧ i = j ∨ s.Deletes q j := by
  unfold Deletes
  rw [procs_spawn]
  by_cases hq : q = s.procs.size
  · rw [if_pos hq, hq, Array.getElem?_size]
    constructor
    · rintro ⟨_, _, ⟨⟩, hpass, ⟨⟩⟩
      exact .inl ⟨rfl, rfl⟩
    · rintro (⟨-, rfl⟩ | ⟨_, _, ⟨⟩, _⟩)
      exact ⟨_, _, rfl, fun h => h id rfl, rfl⟩
  · simp [hq]

theorem procs_endProc (h : Locked s) (hp : s.procs[p]? = some ⟨errand, old⟩)
    (hheld : old.held? = some i) (answer : Answer) (q : ProcId) :
    p = q ∧ (s.endProc p i answer).procs[q]? = some ⟨errand, .ended answer⟩ ∨
    p ≠ q ∧ (∃ errand', s.procs[q]? = some ⟨errand', .queued i⟩ ∧
      (s.endProc p i answer).procs[q]? = some ⟨errand', .admitted i⟩) ∨
    p ≠ q ∧ (s.endProc p i answer).procs[q]? = s.procs[q]? := by
  have hrelease := procs_release (s := s.setStage p (.ended answer)) i q
  have hwaits := h.waits q i
  by_cases hhead : (s.queue i).head? = some q
  · -- the process that waits longest is admitted
    obtain ⟨stage, hstage, hawaited⟩ :=
      Option.bind_eq_some_iff.1 (hwaits.1 (List.mem_of_mem_head? hhead))
    cases Stage.eq_queued hawaited
    obtain ⟨⟨errand', _⟩, hq, rfl⟩ := Option.map_eq_some_iff.1 hstage
    have hpq : p ≠ q := by
      rintro rfl
      rw [hp] at hq
      cases hq
      cases hheld
    refine .inr (.inl ⟨hpq, errand', hq, ?_⟩)
    rw [procs_setStage_of_ne hpq, hq] at hrelease
    exact hrelease.trans (if_pos hhead)
  · have hsame : (s.endProc p i answer).procs[q]? = (s.setStage p (.ended answer)).procs[q]? :=
      hrelease.trans (if_neg hhead)
    by_cases hpq : p = q
    · subst hpq
      exact .inl ⟨rfl, hsame.trans (procs_setStage_self hp _)⟩
    · exact .inr (.inr ⟨hpq, hsame.trans (procs_setStage_of_ne hpq _)⟩)

theorem deletes_endProc (h : Locked s) (hp : s.procs[p]? = some ⟨errand, old⟩)
    (hheld : old.held? = some i) (answer : Answer) :
    (s.endProc p i answer).Deletes q j ↔ s.Deletes q j ∧ p ≠ q := by
  unfold Deletes
  rcases procs_endProc h hp hheld answer q with
    ⟨rfl, heq⟩ | ⟨hpq, errand', hq, heq⟩ | ⟨hpq, heq⟩
  · rw [heq]
    simp [Stage.slot?]
  · rw [heq, hq]
    simp [hpq, Stage.slot?]
  · rw [heq]
    simp [hpq]

/-! ### Flags of slots -/

/-- Whether the deployment of the slot was deleted. -/
def cancelledAt (s : State) (i : SlotId) : Option Bool := (s.slots[i]?).map (·.cancelled)

theorem cancelledAt_modifySlot {f : Slot → Slot} (hf : ∀ sl, (f sl).cancelled = sl.cancelled)
    (i j : SlotId) : (s.modifySlot i f).cancelledAt j = s.cancelledAt j := by
  rw [cancelledAt, slots_modifySlot]
  split
  · rw [cancelledAt, Option.map_map]
    exact congrArg (fun g => (s.slots[j]?).map g) (funext hf)
  · rfl

@[simp] theorem cancelledAt_endProc (i j : SlotId) (answer : Answer) :
    (s.endProc p i answer).cancelledAt j = s.cancelledAt j := by
  have hrelease := slots_release (s := s.setStage p (.ended answer)) i j
  rw [cancelledAt, endProc, hrelease]
  split
  · rw [Option.map_map]
    rfl
  · rfl

end State

/-- The listed slots are those of single deployments, and the unlisted ones are cancelled, but for
those whose flag is still to be set by the one process that deletes them. -/
structure Listing (s : State) : Prop where
  bound : ∀ {id : String} {i : SlotId}, s.index.get? id = some i → i < s.slots.length
  injective : ∀ {id id' : String} {i : SlotId}, s.index.get? id = some i →
    s.index.get? id' = some i → id = id'
  lookup : ∀ {p : ProcId} {errand : Errand} {id : String},
    s.procs[p]? = some ⟨errand, .lookup id⟩ → errand.IsPass
  flag : ∀ {p : ProcId} {errand : Errand} {i : SlotId},
    s.procs[p]? = some ⟨errand, .flag i⟩ → ¬ errand.IsPass
  unlisted : ∀ {p : ProcId} {i : SlotId}, s.Deletes p i → ¬ s.Listed i
  unique : ∀ {p q : ProcId} {i : SlotId}, s.Deletes p i → s.Deletes q i → p = q
  cancelled : ∀ {i : SlotId}, s.cancelledAt i = some false → s.Listed i ∨ ∃ p, s.Flags p i

/-- The id that a request without one is given is not in use. -/
def FreshId (s : State) : Label → Prop
  | .submit request fresh => request.deploymentId.all Text.isBlank → s.index.get? fresh = none
  | _ => True

namespace Listing

variable {s s' : State} {p : ProcId} {i : SlotId} {errand : Errand} {old new : Stage}

theorem of_fresh (h : s.index = .empty) (hslots : s.slots = []) (hprocs : s.procs = #[]) :
    Listing s := by
  constructor <;> simp [State.Deletes, State.cancelledAt, h, hslots, hprocs, SortedMap.get?_empty]

/-- A change that lists nothing, begins no deletion and forgets no flag. -/
theorem mono (h : Listing s) (hindex : s'.index = s.index)
    (hlength : s'.slots.length = s.slots.length)
    (hlookup : ∀ {q : ProcId} {errand : Errand} {id : String},
      s'.procs[q]? = some ⟨errand, .lookup id⟩ → errand.IsPass)
    (hflag : ∀ {q : ProcId} {errand : Errand} {i : SlotId},
      s'.procs[q]? = some ⟨errand, .flag i⟩ → ¬ errand.IsPass)
    (hdeletes : ∀ {q i}, s'.Deletes q i → s.Deletes q i)
    (hcancelled : ∀ {i}, s'.cancelledAt i = some false → s.cancelledAt i = some false)
    (hflags : ∀ {q i}, s'.cancelledAt i = some false → s.Flags q i → s'.Flags q i) :
    Listing s' := by
  refine ⟨?_, ?_, hlookup, hflag, ?_, ?_, ?_⟩
  · rw [hindex, hlength]
    exact h.bound
  · rw [hindex]
    exact h.injective
  · intro q i hq
    rw [State.Listed, hindex]
    exact h.unlisted (hdeletes hq)
  · exact fun hp hq => h.unique (hdeletes hp) (hdeletes hq)
  · intro i hi
    rw [State.Listed, hindex]
    exact (h.cancelled (hcancelled hi)).imp_right fun ⟨q, hq⟩ => ⟨q, hflags hi hq⟩

/-- A change that leaves index, slots and processes as they are. -/
theorem of_eq (h : Listing s) (hindex : s'.index = s.index) (hslots : s'.slots = s.slots)
    (hprocs : s'.procs = s.procs) : Listing s' := by
  refine h.mono hindex (congrArg _ hslots) ?_ ?_ ?_ ?_ ?_
  · rw [hprocs]
    exact h.lookup
  · rw [hprocs]
    exact h.flag
  · unfold State.Deletes
    rw [hprocs]
    exact id
  · unfold State.cancelledAt
    rw [hslots]
    exact id
  · unfold State.Flags
    rw [hprocs]
    exact fun _ => id

theorem spawn (h : Listing s) (hslot : errand.IsPass ∨ new.slot? = none)
    (hlookup : ∀ id, new = .lookup id → errand.IsPass) (hflag : ∀ i, new ≠ .flag i) :
    Listing (s.spawn errand new).1 := by
  refine h.mono rfl rfl ?_ ?_ (State.deletes_spawn hslot).1 id ?_
  · intro q errand' id hq
    rw [State.procs_spawn] at hq
    split at hq
    · cases hq
      exact hlookup id rfl
    · exact h.lookup hq
  · intro q errand' i hq
    rw [State.procs_spawn] at hq
    split at hq
    · cases hq
      exact absurd rfl (hflag i)
    · exact h.flag hq
  · rintro q i - ⟨errand', hq⟩
    refine ⟨errand', ?_⟩
    rw [State.procs_spawn, if_neg, hq]
    rintro rfl
    rw [Array.getElem?_size] at hq
    cases hq

theorem setStage (h : Listing s) (hp : s.procs[p]? = some ⟨errand, old⟩)
    (hslot : ¬ errand.IsPass → new.slot? = old.slot?) (hentry : new.isEntry = false)
    (hold : ∀ i, old ≠ .flag i) : Listing (s.setStage p new) := by
  refine h.mono rfl rfl (fun hq => h.lookup (State.entry_of_setStage hp hentry rfl hq))
    (fun hq => h.flag (State.entry_of_setStage hp hentry rfl hq))
    (State.deletes_setStage hp hslot).1 id ?_
  · rintro q i - ⟨errand', hq⟩
    have hpq : p ≠ q := by
      rintro rfl
      rw [hp] at hq
      cases hq
      exact hold i rfl
    exact ⟨errand', (State.procs_setStage_of_ne hpq _).trans hq⟩

/-- A change of a slot that keeps its flag. -/
theorem modifySlot (h : Listing s) {f : Slot → Slot}
    (hf : ∀ sl, (f sl).cancelled = sl.cancelled) (i : SlotId) : Listing (s.modifySlot i f) :=
  h.mono rfl (State.length_modifySlot ..) h.lookup h.flag id
    (fun hi => (State.cancelledAt_modifySlot hf ..).symm.trans hi) fun _ => id

theorem mapRecord (h : Listing s) (i : SlotId) (f : Deployment → Deployment) :
    Listing (s.mapRecord i f) := by
  refine modifySlot h ?_ i
  exact fun _ => rfl

theorem endProc (h : Listing s) (hlocked : Locked s) (hp : s.procs[p]? = some ⟨errand, old⟩)
    (hheld : old.held? = some i) (answer : Answer) : Listing (s.endProc p i answer) := by
  have hprocs := State.procs_endProc hlocked hp hheld answer
  have hlength : (s.endProc p i answer).slots.length = s.slots.length := State.length_release _
  refine h.mono ?_ hlength ?_ ?_ (fun hq => ((State.deletes_endProc hlocked hp hheld answer).1 hq).1)
    (fun hi => (State.cancelledAt_endProc ..).symm.trans hi) ?_
  · obtain ⟨_, _, heq⟩ := State.endProc_eq (s := s) p i answer
    rw [heq]
  · intro q errand' id hq
    rcases hprocs q with ⟨-, heq⟩ | ⟨-, _, -, heq⟩ | ⟨-, heq⟩ <;> rw [heq] at hq
    · cases hq
    · cases hq
    · exact h.lookup hq
  · intro q errand' i hq
    rcases hprocs q with ⟨-, heq⟩ | ⟨-, _, -, heq⟩ | ⟨-, heq⟩ <;> rw [heq] at hq
    · cases hq
    · cases hq
    · exact h.flag hq
  · rintro q j - ⟨errand', hq⟩
    rcases hprocs q with ⟨rfl, -⟩ | ⟨-, _, hqueued, -⟩ | ⟨-, heq⟩
    · rw [hp] at hq
      cases hq
      cases hheld
    · rw [hqueued] at hq
      cases hq
    · exact ⟨errand', heq.trans hq⟩

/-- A new deployment is listed under an id that is not in use. -/
theorem found (h : Listing s) (hlocked : Locked s) {d : Deployment}
    (hfresh : s.index.get? d.id = none) : Listing (s.found d) := by
  have hself : (s.found d).index.get? d.id = some s.slots.length := SortedMap.get?_insert_self ..
  have hother : ∀ {id}, id ≠ d.id → (s.found d).index.get? id = s.index.get? id :=
    fun hid => SortedMap.get?_insert_of_ne hid
  -- what is listed now is the new slot under the new id, or was listed before
  have hlast : ∀ {id : String} {i : Nat}, (s.found d).index.get? id = some i →
      id = d.id ∧ i = s.slots.length ∨ s.index.get? id = some i ∧ i < s.slots.length := by
    intro id i hi
    by_cases hid : id = d.id
    · subst hid
      rw [hself] at hi
      exact .inl ⟨rfl, (Option.some.inj hi).symm⟩
    · rw [hother hid] at hi
      exact .inr ⟨hi, h.bound hi⟩
  refine ⟨?_, ?_, h.lookup, h.flag, ?_, h.unique, ?_⟩
  · intro id i hi
    have hlength : (s.found d).slots.length = s.slots.length + 1 := by simp [State.found]
    rw [hlength]
    rcases hlast hi with ⟨-, hi⟩ | ⟨-, hi⟩
    · exact hi ▸ Nat.lt_succ_self _
    · exact Nat.lt_succ_of_lt hi
  · intro id id' i hi hi'
    rcases hlast hi with ⟨hid, heq⟩ | ⟨hi, hlt⟩ <;> rcases hlast hi' with ⟨hid', heq'⟩ | ⟨hi', hlt'⟩
    · rw [hid, hid']
    · exact absurd heq (Nat.ne_of_lt hlt')
    · exact absurd heq' (Nat.ne_of_lt hlt)
    · exact h.injective hi hi'
  · rintro p i hp ⟨id, hi⟩
    obtain ⟨errand, stage, hproc, hpass, hslot⟩ := hp
    rcases hlast hi with ⟨-, hi⟩ | ⟨hi, -⟩
    · -- no process is concerned with a slot that was not there
      have hlt := hlocked.placed_proc hproc hslot
      exact absurd hi (Nat.ne_of_lt hlt)
    · exact h.unlisted ⟨errand, stage, hproc, hpass, hslot⟩ ⟨id, hi⟩
  · intro i hi
    rw [State.cancelledAt, State.slots_found] at hi
    split at hi
    · next hlast => exact .inl ⟨d.id, hlast ▸ hself⟩
    · refine (h.cancelled hi).imp_left fun hlisted => ?_
      obtain ⟨id, hid⟩ := hlisted
      refine ⟨id, ?_⟩
      rwa [hother]
      rintro rfl
      rw [hfresh] at hid
      cases hid

/-- A deployment is taken out of the index by the process that deletes it. -/
theorem unlist (h : Listing s) {id : String} (hget : s.index.get? id = some i) :
    Listing (({ s with index := s.index.erase id } : State).spawn (.delete id) (.flag i)).1 := by
  have hspawn : ∀ {q j},
      (({ s with index := s.index.erase id } : State).spawn (.delete id) (.flag i)).1.Deletes q j ↔
        q = s.procs.size ∧ i = j ∨ s.Deletes q j := State.deletes_spawn_flag id
  have hprocs := State.procs_spawn (s := { s with index := s.index.erase id }) (.delete id) (.flag i)
  -- what is still listed was listed before, under another id
  have herase : ∀ {id' j}, (s.index.erase id).get? id' = some j →
      id' ≠ id ∧ s.index.get? id' = some j := by
    intro id' j hj
    rw [SortedMap.get?_erase] at hj
    split at hj
    · cases hj
    · next hne => exact ⟨hne, hj⟩
  refine ⟨fun hj => h.bound (herase hj).2, fun hj hj' => h.injective (herase hj).2 (herase hj').2,
    ?_, ?_, ?_, ?_, ?_⟩
  · intro q errand id' hq
    rw [hprocs] at hq
    split at hq
    · cases hq
    · exact h.lookup hq
  · intro q errand j hq
    rw [hprocs] at hq
    split at hq
    · cases hq
      exact fun hpass => hpass id rfl
    · exact h.flag hq
  · rintro q j hq ⟨id', hid'⟩
    obtain ⟨hne, hid'⟩ := herase hid'
    rcases hspawn.1 hq with ⟨-, rfl⟩ | hq
    · exact hne (h.injective hid' hget)
    · exact h.unlisted hq ⟨id', hid'⟩
  · intro q q' j hq hq'
    rcases hspawn.1 hq with ⟨hsize, hij⟩ | hq <;> rcases hspawn.1 hq' with ⟨hsize', hij'⟩ | hq'
    · rw [hsize, hsize']
    · exact absurd ⟨id, hij ▸ hget⟩ (h.unlisted hq')
    · exact absurd ⟨id, hij' ▸ hget⟩ (h.unlisted hq)
    · exact h.unique hq hq'
  · intro j hj
    rcases h.cancelled hj with ⟨id', hid'⟩ | ⟨q, errand, hq⟩
    · by_cases hne : id' = id
      · -- the slot that is unlisted now is to be flagged
        subst hne
        rw [hget] at hid'
        cases hid'
        refine .inr ⟨s.procs.size, .delete id', ?_⟩
        rw [hprocs, if_pos rfl]
      · refine .inl ⟨id', ?_⟩
        exact (SortedMap.get?_erase ..).trans ((if_neg hne).trans hid')
    · refine .inr ⟨q, errand, ?_⟩
      rw [hprocs, if_neg, hq]
      rintro rfl
      have hsize : s.procs[s.procs.size]? = some ⟨errand, .flag j⟩ := hq
      rw [Array.getElem?_size] at hsize
      cases hsize

/-- The process that deletes a deployment sets the flag of its slot. -/
theorem flagSlot (h : Listing s) (hp : s.procs[p]? = some ⟨errand, .flag i⟩) :
    Listing ((s.modifySlot i fun sl => { sl with cancelled := true }).setStage p (.approach i)) := by
  have hproc : (s.modifySlot i fun sl => { sl with cancelled := true }).procs[p]? =
      some ⟨errand, .flag i⟩ := hp
  -- a slot without a flag is another than `i`, and had none before
  have hflag : ∀ j, ((s.modifySlot i fun sl => { sl with cancelled := true }).setStage p
      (.approach i)).cancelledAt j = some false → i ≠ j ∧ s.cancelledAt j = some false := by
    intro j hj
    have hslots := State.slots_modifySlot (s := s) i j fun sl => { sl with cancelled := true }
    by_cases hij : i = j
    · rw [if_pos hij] at hslots
      rw [State.cancelledAt, State.setStage, hslots] at hj
      cases hs : s.slots[j]? <;> rw [hs] at hj <;> cases hj
    · rw [if_neg hij] at hslots
      rw [State.cancelledAt, State.setStage, hslots] at hj
      exact ⟨hij, hj⟩
  have hdeletes : ∀ {q j}, ((s.modifySlot i fun sl => { sl with cancelled := true }).setStage p
      (.approach i)).Deletes q j ↔ s.Deletes q j := State.deletes_setStage hproc fun _ => rfl
  refine h.mono rfl (State.length_modifySlot ..)
    (fun hq => h.lookup (State.entry_of_setStage hproc rfl rfl hq))
    (fun hq => h.flag (State.entry_of_setStage hproc rfl rfl hq)) hdeletes.1
    (fun hj => (hflag _ hj).2) ?_
  · rintro q j hj ⟨errand', hq⟩
    have hpq : p ≠ q := by
      rintro rfl
      rw [hp] at hq
      cases hq
      exact (hflag _ hj).1 rfl
    exact ⟨errand', (State.procs_setStage_of_ne hpq _).trans hq⟩

theorem turn {s₁ : State} {progress : Progress} (h : Listing s)
    (hturn : Turn s p errand i s₁ progress) : Listing s₁ := by
  cases hturn with
  | @opened _ _ sl _ _ _ _ _ _ =>
    have hmap : Listing (s.mapRecord i fun _ => sl.record.begun) := h.mapRecord ..
    exact hmap.of_eq rfl rfl rfl
  | drained _ _ => exact h
  | concluded _ _ _ _ => exact h

end Listing

theorem newRecord_unlisted {s : State} {request : Request} {fresh : String}
    (hexist : s.existing request = none) (hfresh : FreshId s (.submit request fresh)) :
    s.index.get? (s.newRecord request fresh).id = none := by
  rw [State.newRecord, Deployment.new, State.chooseId]
  rw [FreshId] at hfresh
  cases hid : request.deploymentId with
  | none => exact hfresh (by rw [hid]; rfl)
  | some id =>
    rw [hid] at hfresh
    dsimp only
    split
    · next hblank => exact hfresh hblank
    · cases hget : s.index.get? id with
      | none => rfl
      | some i => simp [State.existing, hid, hget] at hexist

/-- **Every step keeps the listing in order**, as long as ids are fresh. -/
theorem Listing.step {s s' : State} {l : Label} (h : Listing s) (hlocked : Locked s)
    (hfresh : FreshId s l) (hstep : step s l = some s') : Listing s' := by
  cases moves_of_step hstep with
  | refused e _ => exact h.spawn (.inr rfl) (by rintro _ ⟨⟩) (by rintro _ ⟨⟩)
  | revised _ _ =>
    exact (h.mapRecord ..).spawn (.inr rfl) (by rintro _ - _ ⟨⟩) (by rintro _ ⟨⟩)
  | founded _ hexist =>
    refine (h.found hlocked (newRecord_unlisted hexist hfresh)).spawn (.inr rfl) ?_ (by rintro _ ⟨⟩)
    rintro _ - _ ⟨⟩
  | triggered id => exact h.spawn (.inr rfl) (by rintro _ - _ ⟨⟩) (by rintro _ ⟨⟩)
  | unknown _ => exact h.spawn (.inr rfl) (by rintro _ ⟨⟩) (by rintro _ ⟨⟩)
  | unlisted hget => exact h.unlist hget
  | swept =>
    refine State.sweep_induction h fun _ _ _ hs' _ _ => hs'.spawn (.inl ?_) ?_ ?_
    · rintro _ ⟨⟩
    · rintro _ ⟨⟩
    · rintro _ ⟨⟩
  | missed hproc _ =>
    exact h.setStage hproc (fun hpass => absurd (h.lookup hproc) hpass) rfl (by rintro _ ⟨⟩)
  | looked hproc _ =>
    exact h.setStage hproc (fun hpass => absurd (h.lookup hproc) hpass) rfl (by rintro _ ⟨⟩)
  | flagged hproc => exact h.flagSlot hproc
  | locked hproc _ _ =>
    exact (h.modifySlot (fun _ => by rfl) _).setStage hproc (fun _ => rfl) rfl (by rintro _ ⟨⟩)
  | waited hproc _ _ =>
    exact (h.modifySlot (fun _ => by rfl) _).setStage hproc (fun _ => rfl) rfl (by rintro _ ⟨⟩)
  | unplaced hproc _ _ _ =>
    exact ((h.mapRecord ..).mapRecord ..).endProc ((hlocked.mapRecord ..).mapRecord ..) hproc rfl _
  | turned hturn hfollow =>
    obtain ⟨stage, hproc, hheld⟩ := hturn.held
    have hlocked₁ := hlocked.turn hturn
    have h₁ : Listing _ := h.turn hturn
    cases hfollow with
    | dispatched pass _ =>
      refine h₁.setStage hproc (fun _ => (Stage.slot?_of_held hheld).symm) rfl ?_
      rintro _ rfl
      cases hheld
    | aborted pass _ => exact h₁.endProc hlocked₁ hproc hheld _
    | published work report _ =>
      exact (h₁.mapRecord ..).endProc (hlocked₁.mapRecord ..) hproc hheld _
    | deleted id work report _ => exact h₁.endProc hlocked₁ hproc hheld _
  | issued hproc _ _ => exact h.setStage hproc (fun _ => rfl) rfl (by rintro _ ⟨⟩)
  | called hproc _ =>
    exact Listing.setStage (h.of_eq rfl rfl rfl) hproc (fun _ => rfl) rfl (by rintro _ ⟨⟩)
  | elapsed now _ => exact h.of_eq rfl rfl rfl
  | changed c => cases c <;> exact h.of_eq rfl rfl rfl

end Control

end FleetControl
