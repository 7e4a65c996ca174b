import FleetControl.Proofs.Control.Serial
import FleetControl.Proofs.Pass.Truth
import Mathlib.Data.List.DropRight

/-!
# What the record says of its passes

A pass reports when it comes to its end, and the record keeps the last report and counts the passes
since the last that converged.

* `Control.reports` lists the reports of the passes that come to their end on a slot in a run
  (`Control.report?_eq_some_iff`);
* `Control.Rewrites` lists what a step can do to the record of a slot
  (`Control.rewrites_of_step`);
* in every state of a run the record has the last of the reports and the count of those after the
  last that says converged (`Control.tally_run`).

A pass works on a copy of the record and counts from what the copy says; that no other pass has come
to its end in the meantime is what makes the count right (`Control.Flight.tally`).
-/

namespace FleetControl

/-! ### Counting reports -/

/-- The last report, and how many came after the last that says converged. -/
def Report.tally (reports : List Report) : Option Report × Nat :=
  (reports.getLast?, (reports.rtakeWhile (·.state != .converged)).length)

namespace Report

theorem tally_concat (reports : List Report) (report : Report) :
    tally (reports ++ [report]) =
      (some report, if report.state = .converged then 0 else (tally reports).2 + 1) := by
  rw [tally, tally, List.getLast?_concat]
  by_cases hconverged : report.state = .converged
  · rw [List.rtakeWhile_concat_neg _ _ _ (by simp [hconverged]), if_pos hconverged]
    rfl
  · rw [List.rtakeWhile_concat_pos _ _ _ (by simp [hconverged]), if_neg hconverged,
      List.length_append]
    rfl

/-- No pass has been in vain since the last exactly if that converged. -/
theorem tally_eq_zero_iff {reports : List Report} {report : Report}
    (h : (tally reports).1 = some report) :
    (tally reports).2 = 0 ↔ report.state = .converged := by
  obtain ⟨before, rfl⟩ := List.getLast?_eq_some_iff.1 h
  rw [tally_concat]
  by_cases hconverged : report.state = .converged
  · simp [hconverged]
  · simp [hconverged]

end Report

/-- The report of a pass that is over. -/
def Progress.report? : Progress → Option Report
  | .dispatching _ => none
  | .finished _ report => some report

/-- What comes next in a pass that begins, unless its election fails. -/
def Pass.Opening.next? (f : Fleet) : Opening → Option Progress
  | .failed _ _ => none
  | .planned pass selector => some (pass.launch { f with selector })

namespace Control

/-! ### Reports of a run -/

/-- Whether the process is for a pass. -/
def Errand.isPass : Errand → Bool
  | .delete _ => false
  | _ => true

theorem Errand.isPass_iff {errand : Errand} : errand.isPass ↔ errand.IsPass := by
  cases errand <;> simp [isPass, IsPass]

instance (errand : Errand) : Decidable errand.IsPass := decidable_of_iff _ Errand.isPass_iff

/-- What comes next in a pass, if the process takes a turn. -/
def State.next? (s : State) (errand : Errand) (sl : Slot) : Stage → Option Progress
  | .admitted _ => (Pass.start s.fleet sl.record.begun).next? s.fleet
  | .working _ pass batch =>
    if (batch.handOut (State.isCancelled errand sl)).isNone ∧ batch.isDone then
      some (pass.conclude s.fleet batch.outcomes)
    else none
  | _ => none

/-- What comes next in the pass on the slot that a step takes further. -/
def State.progress? (s : State) (i : SlotId) : Label → Option Progress
  | .advance p => do
    let ⟨errand, stage⟩ ← s.procs[p]?
    let sl ← s.slots[i]?
    if errand.IsPass ∧ stage.held? = some i then s.next? errand sl stage else none
  | _ => none

/-- The report of the pass on the slot that comes to its end by the step. -/
def State.report? (s : State) (i : SlotId) : Label → Option Report
  | .advance p => do
    let ⟨errand, stage⟩ ← s.procs[p]?
    let sl ← s.slots[i]?
    if errand.IsPass ∧ stage.held? = some i then
      (s.next? errand sl stage).bind Progress.report?
    else none
  | _ => none

/-- The reports of the passes on the slot that come to their end in a run. -/
def reports (i : SlotId) (s₀ : State) (labels : List Label) : List Report :=
  gather (·.report? i) s₀ labels

section

variable {s s' s₁ : State} {l : Label} {p : ProcId} {errand : Errand} {stage : Stage}
  {i j : SlotId} {d : Deployment} {progress : Progress}

/-- A process goes on with its pass on the slot that it holds. -/
theorem progress?_eq {sl : Slot} (hproc : s.procs[p]? = some ⟨errand, stage⟩)
    (hslot : s.slots[i]? = some sl) : s.progress? i (.advance p) =
      if errand.IsPass ∧ stage.held? = some i then s.next? errand sl stage else none := by
  simp only [State.progress?, hproc, hslot, Option.bind_eq_bind, Option.bind_some]

theorem progress?_turned (hturn : Turn s p errand i s₁ progress) (hpass : errand.IsPass) :
    s.progress? i (.advance p) = some progress := by
  cases hturn with
  | opened hproc _ hslot hstart =>
    have hheld : (Stage.admitted i).held? = some i := rfl
    rw [progress?_eq hproc hslot, if_pos (And.intro hpass hheld)]
    simp only [State.next?, hstart, Pass.Opening.next?]
  | @drained id _ _ _ _ => exact absurd rfl (hpass id)
  | @concluded _ _ sl pass batch hproc hslot hhand hdone =>
    have hheld : (Stage.working i pass batch).held? = some i := rfl
    have hover : (batch.handOut (State.isCancelled errand sl)).isNone ∧ batch.isDone := by
      rw [hhand]
      exact ⟨rfl, hdone⟩
    rw [progress?_eq hproc hslot, if_pos (And.intro hpass hheld)]
    simp only [State.next?, if_pos hover]

/-- **A pass goes on when its process takes a turn**, and only then. -/
theorem progress?_eq_some_iff : s.progress? i l = some progress ↔
    ∃ p errand s₁, l = .advance p ∧ errand.IsPass ∧ Turn s p errand i s₁ progress := by
  constructor
  · intro h
    cases l with
    | advance p =>
      simp only [State.progress?, Option.bind_eq_bind, Option.bind_eq_some_iff] at h
      obtain ⟨⟨errand, stage⟩, hproc, sl, hslot, h⟩ := h
      split at h
      · next hturn =>
        obtain ⟨hpass, hheld⟩ := hturn
        cases stage with
        | admitted j =>
          cases hheld
          cases hstart : Pass.start s.fleet sl.record.begun with
          | failed work' e => simp [State.next?, hstart, Pass.Opening.next?] at h
          | planned pass selector =>
            simp only [State.next?, hstart, Pass.Opening.next?, Option.some.injEq] at h
            have hturn := Turn.opened hproc hpass hslot hstart
            exact ⟨p, errand, _, rfl, hpass, h ▸ hturn⟩
        | working j pass batch =>
          cases hheld
          simp only [State.next?] at h
          split at h
          · next hover =>
            have hhand := Option.isNone_iff_eq_none.1 hover.1
            have hturn := Turn.concluded hproc hslot hhand hover.2
            exact ⟨p, errand, _, rfl, hpass, Option.some.inj h ▸ hturn⟩
          · cases h
        | _ => cases hheld
      · cases h
    | _ => cases h
  · rintro ⟨p, errand, s₁, rfl, hpass, hturn⟩
    exact progress?_turned hturn hpass

/-- A process that does not take a turn with a pass on the slot takes none further. -/
theorem progress?_eq_none (hproc : s.procs[p]? = some ⟨errand, stage⟩)
    (h : errand.IsPass → stage.held? = some i → ∀ sl, s.slots[i]? = some sl →
      s.next? errand sl stage = none) : s.progress? i (.advance p) = none := by
  cases hslot : s.slots[i]? with
  | none =>
    simp only [State.progress?, hproc, hslot, Option.bind_eq_bind, Option.bind_some,
      Option.bind_none]
  | some sl =>
    rw [progress?_eq hproc hslot]
    split
    · next hturn => exact h hturn.1 hturn.2 sl hslot
    · rfl

/-- What comes next in a pass reports of it when that is the end. -/
theorem report?_eq_bind (s : State) (i : SlotId) (l : Label) :
    s.report? i l = (s.progress? i l).bind Progress.report? := by
  cases l with
  | advance p =>
    simp only [State.report?, State.progress?, Option.bind_eq_bind, Option.bind_assoc]
    refine Option.bind_congr fun proc _ => Option.bind_congr fun sl _ => ?_
    split <;> rfl
  | _ => rfl

theorem report?_turned (hturn : Turn s p errand i s₁ progress) (hpass : errand.IsPass) :
    s.report? i (.advance p) = progress.report? := by
  rw [report?_eq_bind, progress?_turned hturn hpass, Option.bind_some]

/-- **A step reports what a pass comes to that is over by it**, and nothing else. -/
theorem report?_eq_some_iff {report : Report} : s.report? i l = some report ↔
    ∃ p errand s₁ work, l = .advance p ∧ errand.IsPass ∧
      Turn s p errand i s₁ (.finished work report) := by
  rw [report?_eq_bind, Option.bind_eq_some_iff]
  constructor
  · rintro ⟨progress, hprogress, hreport⟩
    obtain ⟨p, errand, s₁, rfl, hpass, hturn⟩ := progress?_eq_some_iff.1 hprogress
    cases progress with
    | dispatching _ => cases hreport
    | finished work _ =>
      cases hreport
      exact ⟨p, errand, s₁, work, rfl, hpass, hturn⟩
  · rintro ⟨p, errand, s₁, work, rfl, hpass, hturn⟩
    exact ⟨_, progress?_turned hturn hpass, rfl⟩

/-- A process that does not take a turn with a pass on the slot reports nothing. -/
theorem report?_eq_none (hproc : s.procs[p]? = some ⟨errand, stage⟩)
    (h : errand.IsPass → stage.held? = some i → ∀ sl, s.slots[i]? = some sl →
      s.next? errand sl stage = none) : s.report? i (.advance p) = none := by
  rw [report?_eq_bind, progress?_eq_none hproc h, Option.bind_none]

/-! ### What a step does to a record -/

/-- What a step can make of the record of a slot. -/
inductive Rewrites (s : State) (i : SlotId) (d : Deployment) : Label → Deployment → Prop
  | kept {l : Label} : s.report? i l = none → Rewrites s i d l d
  | revised {request : Request} {fresh : String} :
      Rewrites s i d (.submit request fresh) (d.update request)
  /-- A pass begins and does not come to its end by the step. -/
  | begun {p : ProcId} : s.report? i (.advance p) = none → Rewrites s i d (.advance p) d.begun
  | unplaced {p : ProcId} {work : Deployment} {e : Region.Error} :
      s.report? i (.advance p) = none → Pass.start s.fleet d.begun = .failed work e →
      Rewrites s i d (.advance p) work
  | finished {p : ProcId} {errand : Errand} {s₁ : State} {d₁ work : Deployment} {report : Report} :
      errand.IsPass → Turn s p errand i s₁ (.finished work report) →
      s₁.recordAt i = some d₁ → d₁.tally = d.tally →
      Rewrites s i d (.advance p) (d₁.absorb work)

/-- The record after the beginning of a turn. -/
theorem Turn.recordAt (hturn : Turn s p errand i s₁ progress) (hd : s.recordAt i = some d) :
    s₁.recordAt i = some d ∨ s₁.recordAt i = some d.begun := by
  cases hturn with
  | @opened _ _ sl pass selector _ _ hslot _ =>
    cases (State.recordAt_of_slot hslot).symm.trans hd
    exact .inr (State.recordAt_mapRecord_self hd fun _ => sl.record.begun)
  | drained _ _ => exact .inl hd
  | concluded _ _ _ _ => exact .inl hd

/-- What becomes of the record when a process with a pass on the slot takes a turn. -/
theorem rewrites_of_turn (hturn : Turn s p errand i s₁ progress)
    (hfollow : Follow s₁ p errand i progress s') (hpass : errand.IsPass)
    (hd : s.recordAt i = some d) :
    ∃ d', s'.recordAt i = some d' ∧ Rewrites s i d (.advance p) d' := by
  have hreport := report?_turned hturn hpass
  have hopened := hturn.recordAt hd
  have hdispatching : ∀ pass, progress = .dispatching pass →
      ∃ d', s₁.recordAt i = some d' ∧ Rewrites s i d (.advance p) d' := by
    rintro pass rfl
    rcases hopened with hsame | hbegun
    · exact ⟨d, hsame, .kept hreport⟩
    · exact ⟨d.begun, hbegun, .begun hreport⟩
  cases hfollow with
  | dispatched pass _ => exact hdispatching pass rfl
  | aborted pass _ =>
    rw [State.recordAt_endProc]
    exact hdispatching pass rfl
  | published work report _ =>
    rw [State.recordAt_endProc, State.recordAt_mapRecord, if_pos rfl]
    rcases hopened with hsame | hbegun
    · exact ⟨d.absorb work, by rw [hsame]; rfl, .finished hpass hturn hsame rfl⟩
    · exact ⟨d.begun.absorb work, by rw [hbegun]; rfl,
        .finished hpass hturn hbegun d.tally_begun⟩
  | deleted id work report hdelete => exact absurd hdelete (hpass id)

/-- What becomes of the record by a step of the process that holds the slot. -/
theorem rewrites_of_held (hproc : s.procs[p]? = some ⟨errand, stage⟩)
    (hheld : stage.held? = some i) (hstep : step s (.advance p) = some s')
    (hd : s.recordAt i = some d) :
    ∃ d', s'.recordAt i = some d' ∧ Rewrites s i d (.advance p) d' := by
  cases ownMove_of_step hproc hstep rfl with
  | missed _ => cases hheld
  | looked _ => cases hheld
  | flagged _ => cases hheld
  | locked _ _ => cases hheld
  | waited _ _ => cases hheld
  | @unplaced j sl work e hpass hslot hstart =>
    cases hheld
    cases (State.recordAt_of_slot hslot).symm.trans hd
    have hreport : s.report? i (.advance p) = none := by
      refine report?_eq_none hproc fun _ _ sl' hslot' => ?_
      cases hslot.symm.trans hslot'
      rw [State.next?, hstart]
      rfl
    rw [State.mapRecord_mapRecord, (Pass.Ending.failed hstart).absorb, State.recordAt_endProc,
      State.recordAt_mapRecord, if_pos rfl, hd]
    exact ⟨work, rfl, .unplaced hreport hstart⟩
  | turned hheld' hturn hfollow =>
    cases hheld.symm.trans hheld'
    by_cases hpass : errand.IsPass
    · exact rewrites_of_turn hturn hfollow hpass hd
    · have hreport : s.report? i (.advance p) = none :=
        report?_eq_none hproc fun h => absurd h hpass
      exact ⟨d, (recordAt_turned hturn hfollow (.inr hpass)).trans hd, .kept hreport⟩
  | issued hslot hhand =>
    cases hheld
    refine ⟨d, hd, .kept (report?_eq_none hproc fun _ _ sl' hslot' => ?_)⟩
    cases hslot.symm.trans hslot'
    rw [State.next?, hhand]
    rfl

/-- **A record changes in one of these ways.** -/
theorem rewrites_of_step (hstep : step s l = some s') (hd : s.recordAt i = some d) :
    ∃ d', s'.recordAt i = some d' ∧ Rewrites s i d l d' := by
  obtain ⟨sl, hslot, -⟩ := Option.map_eq_some_iff.1 hd
  have hlt := (List.getElem?_eq_some_iff.1 hslot).1
  rcases record_step hstep hlt with hsame | ⟨-, request, fresh, rfl⟩ | ⟨p, rfl, hheld⟩
  · -- a pass that reports is of the process that holds the slot
    cases hreport : s.report? i l with
    | none => exact ⟨d, hsame.trans hd, .kept hreport⟩
    | some report =>
      obtain ⟨p, errand, s₁, work, rfl, -, hturn⟩ := report?_eq_some_iff.1 hreport
      obtain ⟨stage, hproc, hheld⟩ := hturn.proc
      exact rewrites_of_held hproc hheld hstep hd
  · cases moves_of_step hstep with
    | refused e _ => exact ⟨d, hd, .kept rfl⟩
    | @revised _ _ _ j _ _ =>
      have hrecord := State.recordAt_mapRecord (s := s) j i (·.update request)
      by_cases hji : j = i
      · rw [if_pos hji, hd] at hrecord
        exact ⟨d.update request, hrecord, .revised⟩
      · rw [if_neg hji, hd] at hrecord
        exact ⟨d, hrecord, .kept rfl⟩
    | founded _ _ =>
      have hrecord := State.recordAt_found (s := s) (s.newRecord request fresh) i
      rw [if_neg (Nat.ne_of_lt hlt), hd] at hrecord
      exact ⟨d, hrecord, .kept rfl⟩
    | called _ hcall => cases actor?_of_called hcall
  · obtain ⟨stage, hstage, hheld⟩ := Option.bind_eq_some_iff.1 hheld
    obtain ⟨proc, hproc, rfl⟩ := Option.map_eq_some_iff.1 hstage
    exact rewrites_of_held hproc hheld hstep hd

/-! ### What the record says of its passes -/

/-- The record that takes the pass back has its report, and one pass more to count unless it
converged. -/
theorem Flight.tally {answers : ProcId → Option Answer} {p₀ q : Pass} {events : List Event}
    (h : Flight answers p p₀ events d) {outs : List Outcome} {f : Fleet} {work : Deployment}
    {report : Report} (hcourse : Pass.Course p₀ q outs) (hplan : q.plan = [])
    (hend : q.proceed f = .finished work report) : (d.absorb work).tally =
      (some report, if report.state = .converged then 0 else d.tally.2 + 1) := by
  cases h with
  | @intro _ d₀ f₀ selector requests _ hstart =>
    have hending := Pass.Ending.finished hstart hcourse hplan hend
    have hcount : (d₀.begun.updateAll requests).tally = d₀.begun.tally :=
      Deployment.tally_updateAll ..
    rw [Deployment.tally_absorb, hending.tally, hcount]
    rfl

/-- **A step keeps the tally.** -/
theorem Rewrites.tally {reports : List Report} {events : List Event} {d' : Deployment}
    (h : Rewrites s i d l d') (hI : Intact s)
    (hserial : ∀ d, s.recordAt i = some d → Serial s i events d)
    (hd : d.tally = Report.tally reports) :
    d'.tally = Report.tally (reports ++ (s.report? i l).toList) := by
  have hsame : s.report? i l = none → d'.tally = d.tally →
      d'.tally = Report.tally (reports ++ (s.report? i l).toList) := by
    intro hnone htally
    rw [hnone, Option.toList_none, List.append_nil, htally, hd]
  cases h with
  | kept hnone => exact hsame hnone rfl
  | revised => exact hsame rfl (d.tally_update _)
  | begun hnone => exact hsame hnone d.tally_begun
  | unplaced hnone hstart =>
    exact hsame hnone ((Pass.tally_of_failed hstart).trans d.tally_begun)
  | @finished p errand s₁ d₁ work report hpass hturn hd₁ htally =>
    obtain ⟨p₀, outs, hflight, -, hfinished⟩ := Serial.turned hI hserial hturn hpass hd₁
    obtain ⟨q, f, hcourse, hplan, hend⟩ := hfinished work report rfl
    have hreport : s.report? i (.advance p) = some report := report?_turned hturn hpass
    rw [hflight.tally hcourse hplan hend, hreport, Option.toList_some, Report.tally_concat, htally,
      hd]

/-- A record stays where it is. -/
theorem recordAt_before (hstep : step s l = some s') (hnone : s'.recordAt i = none) :
    s.recordAt i = none := by
  by_contra hsome
  obtain ⟨d, hd⟩ := Option.ne_none_iff_exists'.1 hsome
  obtain ⟨d', hd', -⟩ := rewrites_of_step hstep hd
  cases hnone.symm.trans hd'

/-- A record that was not there before is that of a request. -/
theorem recordAt_new (hstep : step s l = some s') (hnone : s.recordAt i = none)
    (hd : s'.recordAt i = some d) :
    ∃ request fresh, l = .submit request fresh ∧ d = s.newRecord request fresh := by
  obtain ⟨sl, hslot, -⟩ := Option.map_eq_some_iff.1 hd
  have hlt := (List.getElem?_eq_some_iff.1 hslot).1
  have hle : s.slots.length ≤ i := by
    by_contra hlt
    simp [State.recordAt, List.getElem?_eq_getElem (Nat.lt_of_not_le hlt)] at hnone
  rcases index_step hstep with ⟨-, hlength⟩ |
    ⟨request, fresh, rfl, -, haccept, -, hlength⟩ | ⟨id, j, -, -, -, hlength⟩
  · exact absurd hlt (Nat.not_lt.2 (hlength ▸ hle))
  · rw [hlength] at hlt
    have hi : i = s.slots.length := Nat.le_antisymm (Nat.le_of_lt_succ hlt) hle
    simp only [step, State.submit, haccept, Option.some.injEq] at hstep
    have hfound := State.recordAt_found (s := s) (s.newRecord request fresh) i
    rw [if_pos hi] at hfound
    subst hstep
    exact ⟨request, fresh, rfl, Option.some.inj (hd.symm.trans hfound)⟩
  · exact absurd hlt (Nat.not_lt.2 (hlength ▸ hle))

theorem report?_of_recordAt (hnone : s.recordAt i = none) (l : Label) : s.report? i l = none := by
  have hslot : s.slots[i]? = none := Option.map_eq_none_iff.1 hnone
  cases l with
  | advance p =>
    cases hproc : s.procs[p]? with
    | none => simp [State.report?, hproc]
    | some proc => simp [State.report?, hproc, hslot]
  | _ => rfl

/-- **The record has the last of the reports, and the number of those after the last that says
converged.** -/
theorem tally_run {s₀ : State} (h₀ : s₀.Fresh) {labels : List Label}
    (hrun : run s₀ labels = some s) (hd : s.recordAt i = some d) :
    d.tally = Report.tally (reports i s₀ labels) := by
  have hall : (∀ i, s.recordAt i = none → reports i s₀ labels = []) ∧
      ∀ i d, s.recordAt i = some d → d.tally = Report.tally (reports i s₀ labels) := by
    refine run_induction (P := fun labels s =>
      (∀ i, s.recordAt i = none → reports i s₀ labels = []) ∧
      ∀ i d, s.recordAt i = some d → d.tally = Report.tally (reports i s₀ labels)) ?_ ?_ hrun
    · refine ⟨fun _ _ => rfl, fun i d hd => ?_⟩
      rw [State.recordAt, h₀.slots] at hd
      cases hd
    · rintro labels s l s' hrun ⟨hnew, h⟩ hstep
      have hlast : ∀ i, reports i s₀ (labels ++ [l]) =
          reports i s₀ labels ++ (s.report? i l).toList := fun i => gather_concat _ hrun l
      refine ⟨fun i hnone => ?_, fun i d hd => ?_⟩
      · have hbefore := recordAt_before hstep hnone
        rw [hlast, hnew i hbefore, report?_of_recordAt hbefore]
        rfl
      · rw [hlast]
        cases hbefore : s.recordAt i with
        | none =>
          obtain ⟨request, fresh, -, rfl⟩ := recordAt_new hstep hbefore hd
          rw [hnew i hbefore, report?_of_recordAt hbefore]
          rfl
        | some d₀ =>
          obtain ⟨d', hd', hrewrites⟩ := rewrites_of_step hstep hbefore
          cases hd.symm.trans hd'
          exact hrewrites.tally (h₀.intact.run hrun) (fun _ => Serial.run h₀ hrun)
            (h i d₀ hbefore)
  exact hall.2 i d hd

end

end Control

end FleetControl
