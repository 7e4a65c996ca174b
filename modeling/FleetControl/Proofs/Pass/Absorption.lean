import FleetControl.Proofs.Pass.Course
import Mathlib.Data.List.Induction

/-!
# Taking a pass back

A pass runs on a copy of the record, and the record may be given other requests while it runs.
`Pass.Ending d work result` says that a pass on the record `d` can leave the record `work` and come
to the result, an error included.

The record that takes the pass back is the one that the requests leave when they come after the pass
(`Pass.Ending.absorb_requests`). It rests on a pass having run: `Deployment.update` spares a record
that no pass has seen, and such a record a pass does not leave (`Pass.Ending.state_ne_pending`).
-/

namespace FleetControl

namespace Deployment

/-- The requests replace one another in the record. -/
def updateAll (d : Deployment) (requests : List Request) : Deployment := requests.foldl update d

@[simp] theorem updateAll_concat (d : Deployment) (requests : List Request) (request : Request) :
    d.updateAll (requests ++ [request]) = (d.updateAll requests).update request :=
  List.foldl_concat ..

theorem updateAll_id (d : Deployment) (requests : List Request) :
    (d.updateAll requests).id = d.id := by
  induction requests using List.reverseRecOn with
  | nil => rfl
  | append_singleton requests request ih => rw [updateAll_concat, update, ih]

theorem updateAll_generation (d : Deployment) (requests : List Request) :
    (d.updateAll requests).generation = d.generation + requests.length := by
  induction requests using List.reverseRecOn with
  | nil => rfl
  | append_singleton requests request ih =>
    rw [updateAll_concat, update, ih, List.length_append, List.length_singleton, Nat.add_assoc]

/-- A pass on a record that stayed as it was takes its place. -/
theorem absorb_of_generation_eq {d work : Deployment} (h : work.generation = d.generation) :
    d.absorb work = work :=
  if_pos h

/-- A request during a pass is as good as one after it. -/
theorem absorb_update {d work : Deployment} (hid : work.id = d.id)
    (hgeneration : work.generation ≤ d.generation) (hstate : work.state ≠ .pending)
    (request : Request) : (d.update request).absorb work = (d.absorb work).update request := by
  have hnewer : work.generation ≠ (d.update request).generation :=
    Nat.ne_of_lt (Nat.lt_succ_of_le hgeneration)
  rw [absorb, if_neg hnewer]
  by_cases hsame : work.generation = d.generation
  · -- the first request since the pass began
    rw [absorb_of_generation_eq hsame, update, update, if_neg hstate, hid, hsame]
  · rw [absorb, if_neg hsame]
    simp [update, hid]

theorem absorb_updateAll {d work : Deployment} (hid : work.id = d.id)
    (hgeneration : work.generation = d.generation) (hstate : work.state ≠ .pending)
    (requests : List Request) : (d.updateAll requests).absorb work = work.updateAll requests := by
  induction requests using List.reverseRecOn with
  | nil => exact absorb_of_generation_eq hgeneration
  | append_singleton requests request ih =>
    have hle : work.generation ≤ (d.updateAll requests).generation := by
      rw [updateAll_generation, hgeneration]
      exact Nat.le_add_right ..
    rw [updateAll_concat, updateAll_concat, ← ih]
    exact absorb_update (hid.trans (d.updateAll_id requests).symm) hle hstate request

end Deployment

namespace Pass

/-- A pass on the record `d` can leave the record `work` and come to the result: its election fails,
or it follows its course to the end, whatever the outcomes and whatever becomes of the fleet
meanwhile. -/
inductive Ending (d : Deployment) : Deployment → Except Region.Error Report → Prop
  | failed {f : Fleet} {work : Deployment} {e : Region.Error} :
      start f d = .failed work e → Ending d work (.error e)
  | finished {f f' : Fleet} {p₀ p : Pass} {selector : Placement.Selector} {outs : List Outcome}
      {work : Deployment} {report : Report} :
      start f d = .planned p₀ selector → Course p₀ p outs → p.plan = [] →
      p.proceed f' = .finished work report → Ending d work (.ok report)

theorem finish_state_ne_pending {now target : Nat} {p : Pass} {work : Deployment} {report : Report}
    (h : p.finish now target = .finished work report) : work.state ≠ .pending := by
  simp only [finish, Progress.finished.injEq] at h
  obtain ⟨rfl, -⟩ := h
  dsimp only
  split <;> simp

/-- An election is held only where something is to be done. -/
theorem start_failed_state {f : Fleet} {d work : Deployment} {e : Region.Error}
    (h : start f d = .failed work e) : work.state = .converging := by
  rw [start_eq] at h
  split at h
  · cases h
  · next hdemand =>
    split at h
    · cases h
      unfold opened at hdemand ⊢
      dsimp only at hdemand ⊢
      split
      · rfl
      · next hidle =>
        rw [if_neg hidle] at hdemand
        simp only [Bool.or_eq_true, bne_iff_ne, not_or, not_not] at hidle
        exact absurd (Int.le_of_eq hidle.1) hdemand
    · cases h

namespace Ending

variable {d work : Deployment} {result : Except Region.Error Report}

theorem copyOf (h : Ending d work result) : work.CopyOf d := by
  cases h with
  | failed hstart => exact (start_failed hstart).1
  | finished hstart hcourse _ hend =>
    exact (finished_eq hend).1.trans (hcourse.copyOf.trans (start_planned hstart).1)

theorem state_ne_pending (h : Ending d work result) : work.state ≠ .pending := by
  cases h with
  | failed hstart =>
    rw [start_failed_state hstart]
    simp
  | finished _ _ _ hend =>
    obtain ⟨target, hfinish⟩ := proceed_finished hend
    exact finish_state_ne_pending hfinish

/-- **Requests during a pass are as good as requests after it.** -/
theorem absorb_requests (h : Ending d work result) (requests : List Request) :
    (d.updateAll requests).absorb work = work.updateAll requests :=
  Deployment.absorb_updateAll h.copyOf.id h.copyOf.generation h.state_ne_pending requests

/-- Without a request in between the record is the one that the pass left. -/
theorem absorb (h : Ending d work result) : d.absorb work = work :=
  h.absorb_requests []

end Ending

end Pass

end FleetControl
