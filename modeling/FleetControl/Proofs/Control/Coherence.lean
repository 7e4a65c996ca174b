import FleetControl.Proofs.Control.Deletion
import FleetControl.Proofs.Control.Serial

/-!
# Records stay coherent

What a record says is wanted comes from one request: the last that was accepted for its slot. This
is so for what requests and passes leave when they happen one after the other (`Replay.obeys`), and
hence for every record in every state of every run (`Serial.obeys`), a pass that publishes an older
copy included. No accepted request is lost: the generation counts them.

A slot is listed under the id that it was founded under (`Control.named_of_listed`), and that is the
id in the record and in its request. Together these make a record of a listed slot
*coherent* (`Control.Coherent`, `Control.records_coherent`).
-/

namespace FleetControl

namespace Control

/-! ### Requests for a slot -/

/-- The request, if a step accepts one for the slot. -/
def State.requestFor? (s : State) (i : SlotId) (l : Label) : Option Request :=
  ((s.acceptance l).filter (·.1 == i)).map (·.2)

/-- The request, if a step accepts one for the slot and the slot is there already. -/
def State.resubmission? (s : State) (i : SlotId) (l : Label) : Option Request :=
  if i < s.slots.length then s.requestFor? i l else none

/-- The requests that a run accepts for a slot, in the order in which it accepts them. -/
def requestsFor (i : SlotId) (s₀ : State) (labels : List Label) : List Request :=
  gather (·.requestFor? i) s₀ labels

/-- The requests that a run accepts for a slot after the one that founded it. -/
def resubmissions (i : SlotId) (s₀ : State) (labels : List Label) : List Request :=
  gather (·.resubmission? i) s₀ labels

/-- The request that an event is. -/
def Event.request? : Event → Option Request
  | .request r => some r
  | .pass _ => none

section

variable {s₀ s s' : State} {labels : List Label} {l : Label} {i : SlotId} {request : Request}

theorem requestFor?_eq_some :
    s.requestFor? i l = some request ↔ s.acceptance l = some (i, request) := by
  simp only [State.requestFor?, Option.map_eq_some_iff, Option.filter_eq_some_iff, beq_iff_eq]
  constructor
  · rintro ⟨⟨j, r⟩, ⟨hl, rfl⟩, rfl⟩
    exact hl
  · exact fun hl => ⟨(i, request), ⟨hl, rfl⟩, rfl⟩

/-- The events of a slot that are requests are those accepted for it. -/
theorem requests_history (h : run s₀ labels = some s) (i : SlotId) :
    (history i s₀ labels).filterMap Event.request? = requestsFor i s₀ labels := by
  refine run_induction (P := fun labels _ =>
    (history i s₀ labels).filterMap Event.request? = requestsFor i s₀ labels) rfl ?_ h
  intro labels s l s' hrun ih _
  rw [history_append hrun, requestsFor, gather_concat _ hrun, List.filterMap_append, ih, requestsFor]
  congr 1
  cases l with
  | submit request fresh =>
    rw [State.event?, State.requestFor?]
    cases s.acceptance (.submit request fresh) with
    | none => rfl
    | some a => by_cases hi : a.1 = i <;> simp [hi, Event.request?, Option.filter]
    · rintro p ⟨⟩
  | advance p =>
    rw [State.event?]
    split <;> rfl
  | _ => rfl

/-- A request is accepted for a slot that is there, or it founds the next one. -/
theorem slot_of_acceptance (h : Intact s) (hstep : step s l = some s')
    (ha : s.acceptance l = some (i, request)) :
    i < s.slots.length ∧ s'.slots.length = s.slots.length ∨
      i = s.slots.length ∧ s'.slots.length = s.slots.length + 1 := by
  cases moves_of_step hstep with
  | refused e haccept => simp [State.acceptance, haccept] at ha
  | revised haccept hget =>
    cases (acceptance_of_revised haccept hget).symm.trans ha
    exact .inl ⟨h.bound hget, State.length_modifySlot ..⟩
  | founded haccept _ =>
    cases (acceptance_of_founded haccept).symm.trans ha
    exact .inr ⟨rfl, (index_of_founded haccept hstep).2.2⟩
  | called _ hcall => rcases hcall with ⟨rfl, -⟩ | ⟨rfl, -⟩ <;> cases ha
  | _ => cases ha

/-- A step that accepts no request for a slot does not found it. -/
theorem lt_length_step (hstep : step s l = some s') (hnone : s.requestFor? i l = none) :
    i < s'.slots.length ↔ i < s.slots.length := by
  rcases index_step hstep with ⟨-, hlength⟩ | ⟨request, fresh, rfl, -, haccept, -, hlength⟩ |
    ⟨_, _, -, -, -, hlength⟩
  · rw [hlength]
  · have hne : i ≠ s.slots.length := by
      rintro rfl
      cases hnone.symm.trans (requestFor?_eq_some.2 (acceptance_of_founded haccept))
    rw [hlength]
    exact Nat.lt_succ_iff_lt_or_eq.trans (or_iff_left hne)
  · rw [hlength]

/-- The first request for a slot founds it, and the others are submitted again. -/
theorem length_requestsFor (h₀ : s₀.Fresh) (h : run s₀ labels = some s) (i : SlotId) :
    (requestsFor i s₀ labels).length =
      (if i < s.slots.length then 1 else 0) + (resubmissions i s₀ labels).length := by
  refine run_induction (P := fun labels s => (requestsFor i s₀ labels).length =
    (if i < s.slots.length then 1 else 0) + (resubmissions i s₀ labels).length) ?_ ?_ h
  · rw [h₀.slots]
    rfl
  · intro labels s l s' hrun ih hstep
    rw [requestsFor, resubmissions, gather_concat _ hrun, gather_concat _ hrun, ← requestsFor,
      ← resubmissions, List.length_append, List.length_append, ih, State.resubmission?]
    cases hl : s.requestFor? i l with
    | none => simp only [ite_self, lt_length_step hstep hl, Option.toList_none, List.length_nil,
        Nat.add_zero]
    | some request =>
      have hslot := slot_of_acceptance (h₀.intact.run hrun) hstep (requestFor?_eq_some.1 hl)
      rcases hslot with ⟨hlt, hlength⟩ | ⟨rfl, hlength⟩
      · simp only [if_pos hlt, hlength, Option.toList_some, List.length_singleton, Nat.add_assoc]
      · rw [hlength, if_neg (Nat.lt_irrefl _), if_neg (Nat.lt_irrefl _), if_pos (Nat.lt_succ_self _)]
        simp [Nat.add_comm]

/-! ### What requests leave -/

/-- The record wants what the last of the requests asks for, and has counted them all. -/
structure Obeys (requests : List Request) (d : Deployment) : Prop where
  request : ∃ request, requests.getLast? = some request ∧
    d.request = { request with deploymentId := some d.id }
  fingerprint : d.specFingerprint = d.request.container.fingerprint
  generation : d.generation = requests.length

variable {requests : List Request} {d work : Deployment}

theorem Obeys.of_copy (h : Obeys requests d) (hcopy : work.CopyOf d) : Obeys requests work where
  request := by
    rw [hcopy.request, hcopy.id]
    exact h.request
  fingerprint := by rw [hcopy.specFingerprint, hcopy.request, h.fingerprint]
  generation := hcopy.generation.trans h.generation

theorem Obeys.update (h : Obeys requests d) (request : Request) :
    Obeys (requests ++ [request]) (d.update request) where
  request := ⟨request, List.getLast?_concat, rfl⟩
  fingerprint := rfl
  generation := by rw [List.length_append, ← h.generation]; rfl

theorem Obeys.updateAll (h : Obeys requests d) (more : List Request) :
    Obeys (requests ++ more) (d.updateAll more) := by
  induction more using List.reverseRecOn with
  | nil => rwa [List.append_nil]
  | append_singleton more request ih =>
    rw [← List.append_assoc, Deployment.updateAll_concat]
    exact ih.update request

theorem Obeys.begun (h : Obeys requests d) : Obeys requests d.begun := by
  obtain ⟨state, heq⟩ := d.begun_eq
  rw [heq]
  exact h.of_copy ⟨rfl, rfl, rfl, rfl⟩

variable {answers : ProcId → Option Answer} {events : List Event} {p : ProcId} {p₀ : Pass}

/-- Requests and passes leave what the last request asks for. -/
theorem Replay.obeys (h : Replay answers events d) : Obeys (events.filterMap Event.request?) d := by
  induction h with
  | founded id request capacity now => exact ⟨⟨request, rfl, rfl⟩, rfl, rfl⟩
  | revised request _ ih =>
    rw [List.filterMap_append]
    exact ih.update request
  | passed _ hend _ _ ih =>
    rw [List.filterMap_append]
    exact (List.append_nil _).symm ▸ ih.begun.of_copy hend.copyOf
  | aborted _ _ ih =>
    rw [List.filterMap_append]
    exact (List.append_nil _).symm ▸ ih.begun

/-- The requests since the beginning of a pass under way are not lost. -/
theorem Flight.obeys (h : Flight answers p p₀ events d) :
    Obeys (events.filterMap Event.request?) d := by
  cases h with
  | intro requests hbefore _ =>
    have hrequests : (requests.map Event.request).filterMap Event.request? = requests := by
      rw [List.filterMap_map]
      exact List.filterMap_some
    rw [List.filterMap_append, List.filterMap_cons_none rfl, hrequests]
    exact hbefore.obeys.begun.updateAll requests

theorem Serial.obeys (h : Serial s i events d) : Obeys (events.filterMap Event.request?) d := by
  by_cases hidle : ∀ p pass, ¬ s.Carries p i pass
  · exact (h.rest hidle).obeys
  · simp only [not_forall, not_not] at hidle
    obtain ⟨p, pass, hcarries⟩ := hidle
    obtain ⟨p₀, outs, hflight, -⟩ := h.flight hcarries
    exact hflight.obeys

/-! ### Names of listed slots -/

variable {n m id : String}

theorem Founded.bound (h : Founded s₀ labels n i) (hrun : run s₀ labels = some s) :
    i < s.slots.length := by
  refine run_induction (P := fun labels s => Founded s₀ labels n i → i < s.slots.length) ?_ ?_ hrun h
  · rintro ⟨before, request, fresh, s, hbefore, -⟩
    simp at hbefore
  · intro labels s l s' hrun ih hstep h
    rcases h.of_append hrun with h | ⟨request, fresh, rfl, haccept, rfl, -⟩
    · exact Nat.lt_of_lt_of_le (ih h) (length_step hstep)
    · exact (index_of_founded haccept hstep).2.2 ▸ Nat.lt_succ_self _

/-- A slot is founded under one id. -/
theorem Founded.unique (h : Founded s₀ labels n i) (h' : Founded s₀ labels m i)
    (hrun : run s₀ labels = some s) : n = m := by
  refine run_induction (P := fun labels _ => Founded s₀ labels n i → Founded s₀ labels m i → n = m)
    ?_ ?_ hrun h h'
  · rintro ⟨before, request, fresh, s, hbefore, -⟩
    simp at hbefore
  · intro labels s l s' hrun ih hstep h h'
    rcases h.of_append hrun with h | ⟨request, fresh, hl, -, hi, hn⟩ <;>
      rcases h'.of_append hrun with h' | ⟨request', fresh', hl', -, hi', hm⟩
    · exact ih h h'
    · exact absurd hi'.symm (Nat.ne_of_lt (h.bound hrun))
    · exact absurd hi.symm (Nat.ne_of_lt (h'.bound hrun))
    · cases hl.symm.trans hl'
      exact hn.symm.trans hm

/-- The record of a listed slot has the id that it is listed under. -/
theorem named_of_listed (h₀ : s₀.Fresh) (hrun : run s₀ labels = some s)
    (hget : s.index.get? id = some i) : ∃ d, s.recordAt i = some d ∧ d.id = id := by
  have hnone : s₀.index.get? id = none := by
    rw [h₀.index]
    exact SortedMap.get?_empty id
  have htracks := Tracks.run (h₀.tracks _ _) (fun labels s l hrun => upkeep_named hrun l) hrun
  obtain ⟨d, hd⟩ := State.exists_recordAt ((h₀.intact.run hrun).bound hget)
  exact ⟨d, hd, (htracks.record hd).unique (founded_of_listed hnone hrun hget) hrun⟩

/-- Requests that name no deployment are given ids that are not blank. -/
def GivesIds (labels : List Label) : Prop :=
  ∀ request fresh, .submit request fresh ∈ labels → request.deploymentId.all Text.isBlank →
    Text.isBlank fresh = false

/-- No deployment is founded under a blank id. -/
theorem Founded.not_blank (h : Founded s₀ labels n i) (hgives : GivesIds labels) :
    Text.isBlank n = false := by
  obtain ⟨before, request, fresh, s, hbefore, -, -, -, rfl⟩ := h
  have hmem := hbefore.subset (List.mem_append_right _ List.mem_cons_self)
  have hgiven := hgives request fresh hmem
  show Text.isBlank (State.chooseId request fresh) = false
  unfold State.chooseId
  split
  · next id hid =>
    split
    · next hblank => exact hgiven (by rw [hid]; exact hblank)
    · next hblank => exact Bool.eq_false_iff.2 hblank
  · next hid => exact hgiven (by rw [hid]; rfl)

/-! ### Coherence -/

/-- The record of a listed slot bears its id, which is not blank, wants what the request asks for
that was accepted last, and counts the requests. -/
structure Coherent (s₀ : State) (labels : List Label) (key : String) (i : SlotId)
    (d : Deployment) : Prop where
  id : d.id = key
  named : d.request.deploymentId = some key
  not_blank : Text.isBlank key = false
  fingerprint : d.specFingerprint = d.request.container.fingerprint
  request : ∃ request, (requestsFor i s₀ labels).getLast? = some request ∧
    d.request = { request with deploymentId := some key }
  generation : d.generation = 1 + (resubmissions i s₀ labels).length

/-- **Records stay coherent and no accepted request is lost**, whatever the order of calls, passes
and failures. -/
theorem records_coherent (h₀ : s₀.Fresh) (hgives : GivesIds labels)
    (hrun : run s₀ labels = some s) (hget : s.index.get? id = some i) :
    ∃ d, s.recordAt i = some d ∧ Coherent s₀ labels id i d := by
  obtain ⟨d, hd, rfl⟩ := named_of_listed h₀ hrun hget
  have htracks := Tracks.run (h₀.tracks _ _) (fun labels s l hrun => upkeep_named hrun l) hrun
  have hobeys := (Serial.run h₀ hrun hd).obeys
  rw [requests_history hrun] at hobeys
  obtain ⟨request, hlast, hrequest⟩ := hobeys.request
  refine ⟨d, hd, rfl, ?_, (htracks.record hd).not_blank hgives, hobeys.fingerprint,
    ⟨request, hlast, hrequest⟩, ?_⟩
  · rw [hrequest]
  · rw [hobeys.generation, length_requestsFor h₀ hrun,
      if_pos ((h₀.intact.run hrun).bound hget)]

end

theorem records_coherent_requestDuringPass :
    oneNode.Fresh ∧ GivesIds requestDuringPass ∧ ∃ s d, run oneNode requestDuringPass = some s ∧
      s.index.get? "a" = some 0 ∧ s.recordAt 0 = some d ∧
      Coherent oneNode requestDuringPass "a" 0 d ∧ d.generation = 2 := by
  have hgives : GivesIds requestDuringPass := by
    intro request fresh hmem _
    have hsubmitted : fresh = "a" ∨ fresh = "b" := by
      simp [requestDuringPass] at hmem
      exact hmem.imp And.right And.right
    rcases hsubmitted with rfl | rfl <;> decide
  have hend : (run oneNode requestDuringPass).any fun s => s.index.get? "a" == some 0 := by
    decide +kernel
  have hcount : (resubmissions 0 oneNode requestDuringPass).length = 1 := by decide +kernel
  obtain ⟨s, hrun, hs⟩ := (Option.any_eq_true ..).1 hend
  have hget := beq_iff_eq.1 hs
  obtain ⟨d, hd, hcoherent⟩ := records_coherent fresh_oneNode hgives hrun hget
  refine ⟨fresh_oneNode, hgives, s, d, hrun, hget, hd, hcoherent, ?_⟩
  rw [hcoherent.generation, hcount]

end Control

end FleetControl
