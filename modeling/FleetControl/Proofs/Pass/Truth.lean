import FleetControl.Proofs.Pass.Absorption
import FleetControl.Proofs.Pass.Availability
import FleetControl.Proofs.Pass.Success

/-!
# Published records tell the truth

The state of a record says how the instances stand to what is wanted (`Deployment.Truthful`). New
records are truthful, requests and the beginnings of passes keep them so, and what a pass leaves is
truthful whatever the record was (`Pass.Ending.truthful`): the state is set last, from the instances
that there are by then. That a converged record has no warning takes more. A pass warns where it
finds too few nodes for what is missing, and then what is planned does not meet the scale
(`Pass.warnings_of_start`), whatever becomes of the plan (`Pass.Course.short`).

A pass adds itself to what the record says of the passes before it (`Pass.Ending.tally`).
-/

namespace FleetControl

namespace Deployment

/-- The state of the record is true of its instances. -/
structure Truthful (d : Deployment) : Prop where
  converged : d.state = .converged → d.matched.length = d.scale ∧ d.stale = [] ∧ d.warnings = []
  degraded : d.state = .degraded → d.needsConvergence = true
  pending : d.state = .pending → d.instances = [] ∧ d.lastReport = none

/-- What the record says of the passes on it: the last report, and the number of passes since the
last that converged. -/
def tally (d : Deployment) : Option Report × Nat := (d.lastReport, d.consecutiveDegradedPasses)

section

variable {d : Deployment}

theorem needsConvergence_eq_false_iff :
    d.needsConvergence = false ↔ d.matched.length = d.scale ∧ d.stale = [] := by
  simp [needsConvergence]

theorem truthful_new (id : String) (request : Request) (capacity now : Nat) :
    (new id request capacity now).Truthful :=
  ⟨by rintro ⟨⟩, by rintro ⟨⟩, fun _ => ⟨rfl, rfl⟩⟩

theorem update_state (d : Deployment) (request : Request) :
    (d.update request).state = .pending ∧ d.state = .pending ∨
      (d.update request).state = .converging := by
  unfold update
  by_cases hpending : d.state = .pending
  · simp [hpending]
  · simp [hpending]

theorem Truthful.update (h : d.Truthful) (request : Request) : (d.update request).Truthful := by
  rcases d.update_state request with ⟨hstate, hpending⟩ | hstate
  · refine ⟨?_, ?_, fun _ => h.pending hpending⟩ <;> simp [hstate]
  · constructor <;> simp [hstate]

theorem Truthful.updateAll (h : d.Truthful) (requests : List Request) :
    (d.updateAll requests).Truthful := by
  induction requests using List.reverseRecOn with
  | nil => exact h
  | append_singleton requests request ih =>
    rw [updateAll_concat]
    exact ih.update request

/-- The record is marked where there is something to do. -/
theorem Truthful.begun (h : d.Truthful) : d.begun.Truthful := by
  unfold Deployment.begun
  split
  · constructor <;> simp
  · exact h

theorem Truthful.converged_iff (h : d.Truthful)
    (hsettled : d.state = .converged ∨ d.state = .degraded) :
    d.state = .converged ↔ d.needsConvergence = false := by
  constructor
  · intro hconverged
    obtain ⟨hmatched, hstale, -⟩ := h.converged hconverged
    exact needsConvergence_eq_false_iff.2 ⟨hmatched, hstale⟩
  · intro hnothing
    refine hsettled.resolve_right fun hdegraded => ?_
    rw [h.degraded hdegraded] at hnothing
    cases hnothing

@[simp] theorem tally_update (d : Deployment) (request : Request) :
    (d.update request).tally = d.tally := rfl

@[simp] theorem tally_begun (d : Deployment) : d.begun.tally = d.tally := by
  obtain ⟨state, h⟩ := d.begun_eq
  rw [h]
  rfl

@[simp] theorem tally_updateAll (d : Deployment) (requests : List Request) :
    (d.updateAll requests).tally = d.tally := by
  induction requests using List.reverseRecOn with
  | nil => rfl
  | append_singleton requests request ih => rw [updateAll_concat, tally_update, ih]

@[simp] theorem tally_absorb (d work : Deployment) : (d.absorb work).tally = work.tally := by
  obtain ⟨_, _, _, _, h⟩ := absorb_eq d work
  rw [h]
  rfl

end

end Deployment

namespace Pass

section

variable {f : Fleet} {d work : Deployment} {p₀ p : Pass} {selector : Placement.Selector}
  {outs : List Outcome} {report : Report} {e : Region.Error}

theorem warnings_opened (f : Fleet) (d : Deployment) : (opened f d).warnings = [] := by
  obtain ⟨state, h⟩ := opened_eq f d
  rw [h]

theorem tally_opened (f : Fleet) (d : Deployment) : (opened f d).tally = d.tally := by
  obtain ⟨state, h⟩ := opened_eq f d
  rw [h]
  rfl

/-- The first plan says nothing of earlier passes, and warns of what it leaves of the demand. -/
theorem planScale_work (d : Deployment) (r : Report) (eligible : Nat)
    (selection : Placement.Selection) :
    (planScale d r eligible selection).work.tally = d.tally ∧
      ((planScale d r eligible selection).work.warnings = d.warnings ∨
        ∃ targets, selection = .create targets) := by
  cases selection with
  | nothing => exact ⟨rfl, .inl rfl⟩
  | create targets => exact ⟨rfl, .inr ⟨targets, rfl⟩⟩
  | remove victims => exact ⟨rfl, .inl rfl⟩

theorem tally_of_start (h : start f d = .planned p selector) : p.work.tally = d.tally := by
  rw [start_eq] at h
  split at h
  · cases h
    exact (planScale_work ..).1.trans (tally_opened f d)
  · split at h
    · cases h
    · cases h
      exact (planScale_work ..).1.trans (tally_opened f d)

theorem tally_of_failed (h : start f d = .failed work e) : work.tally = d.tally := by
  rw [start_eq] at h
  split at h
  · cases h
  · split at h
    · cases h
      exact tally_opened f d
    · cases h

/-- **A pass that warns has planned less than is missing.** -/
theorem warnings_of_start (h : start f d = .planned p selector) :
    p.work.warnings = [] ∨ p.creates < d.scale - (dropLost f.registry d).matched.length := by
  have hdemand := demand_opened f d
  rw [start_eq] at h
  split at h
  · next hle =>
    simp only [Opening.planned.injEq] at h
    obtain ⟨rfl, -⟩ := h
    left
    refine ((planScale_work ..).2.resolve_right ?_).trans (warnings_opened f d)
    rintro ⟨targets, htargets⟩
    exact f.selector.select_ne_create _ _ hle targets htargets
  · next hlt =>
    have hpos : 0 < demand (opened f d) := by omega
    have hmin : min (demand (opened f d)).toNat Placement.maxDemand =
        d.scale - (dropLost f.registry d).matched.length := by
      have := scale_le_maxDemand d
      omega
    split at h
    · cases h
    · next election hel =>
      simp only [Opening.planned.injEq] at h
      obtain ⟨rfl, -⟩ := h
      simp only [Placement.Selector.select_of_pos _ _ _ hpos, hmin, planScale, planCreate, creates,
        countP_isCreate_creations]
      split
      · next hpartial =>
        -- some of what is missing is left over
        right
        simp only [Placement.Targets.isPartial, decide_eq_true_eq,
          Placement.Selector.shortfall_selectTargets] at hpartial
        omega
      · exact .inl rfl

/-! ### Along the course -/

/-- What a pass says of itself in the beginning it says to the end, and it does not come to drain. -/
theorem Course.kept (h₀ : p₀.phase ≠ .drain) (h : Course p₀ p outs) :
    p.work.tally = p₀.work.tally ∧ p.work.warnings = p₀.work.warnings ∧ p.phase ≠ .drain := by
  induction h with
  | opened => exact ⟨rfl, rfl, h₀⟩
  | @folded p _ o rest now _ _ ih =>
    obtain ⟨instances, errorLog, heq⟩ := fold_eq now p.work p.report o
    rw [take, heq]
    exact ih
  | proceeded f _ _ hnext ih =>
    obtain ⟨-, rfl⟩ := proceed_dispatching hnext
    exact ⟨ih.1, ih.2.1, by simp⟩

/-- What is not planned in the beginning stays missing. -/
theorem Course.short (hstart : start f d = .planned p₀ selector) (h : Course p₀ p outs)
    (hshort : p₀.creates < d.scale - (dropLost f.registry d).matched.length) :
    p.work.matched.length < p.work.scale := by
  obtain ⟨hcopy, hinst, -⟩ := start_planned hstart
  have hsupply := h.supply_le p.work.specFingerprint
  have hfp := h.copyOf.specFingerprint
  have hkept : (dropLost f.registry d).matched.length =
      p₀.work.instances.countP (·.specFingerprint == p₀.work.specFingerprint) := by
    rw [hinst, hcopy.specFingerprint]
    exact length_matched_eq _
  have hscale := (h.copyOf.trans hcopy).scale
  rw [supply, supply, if_pos rfl, if_pos hfp.symm, ← length_matched_eq, hfp, ← hkept] at hsupply
  omega

theorem finish_of_proceed (hphase : p.phase ≠ .drain) (h : p.proceed f = .finished work report) :
    p.finish f.wall p.work.scale = .finished work report := by
  unfold proceed at h
  cases hp : p.phase with
  | scale =>
    simp only [hp] at h
    split at h
    · exact h
    · cases h
  | retire => simpa only [hp] using h
  | drain => exact absurd hp hphase

/-- A pass that ends settles the state. -/
theorem finish_settled {now target : Nat} (h : p.finish now target = .finished work report) :
    work.state = .converged ∨ work.state = .degraded := by
  simp only [finish, Progress.finished.injEq] at h
  obtain ⟨rfl, -⟩ := h
  dsimp only
  split
  · exact .inl rfl
  · exact .inr rfl

/-- The state that a pass leaves is true, if it warned only of what stayed missing. -/
theorem finish_truthful {now : Nat} (h : p.finish now p.work.scale = .finished work report)
    (hwarnings : p.work.warnings = [] ∨ p.work.matched.length < p.work.scale) : work.Truthful := by
  have hconverged := finish_state h
  have hsettled := finish_settled h
  obtain ⟨state, degraded, rfl⟩ := finish_eq h
  constructor
  · intro hstate
    obtain ⟨hmatched, hstale⟩ := hconverged.1 hstate
    exact ⟨hmatched, hstale, hwarnings.resolve_right (Nat.not_lt.2 (Nat.le_of_eq hmatched.symm))⟩
  · intro hstate
    by_contra hnothing
    rw [Bool.not_eq_true, Deployment.needsConvergence_eq_false_iff] at hnothing
    rw [hconverged.2 hnothing] at hstate
    cases hstate
  · intro hstate
    rw [hstate] at hsettled
    simp at hsettled

theorem finish_tally {now target : Nat} (h : p.finish now target = .finished work report) :
    work.tally = (some report,
      if report.state = .converged then 0 else p.work.consecutiveDegradedPasses + 1) := by
  simp only [finish, Progress.finished.injEq] at h
  obtain ⟨rfl, rfl⟩ := h
  rw [Deployment.tally]
  dsimp only
  split <;> rfl

end

/-! ### Ends -/

namespace Ending

variable {d work : Deployment} {result : Except Region.Error Report} {report : Report}

/-- **What a pass leaves is truthful.** -/
theorem truthful (h : Ending d work result) : work.Truthful := by
  cases h with
  | failed hstart =>
    have hstate := start_failed_state hstart
    constructor <;> simp [hstate]
  | finished hstart hcourse _ hend =>
    have hphase := (start_planned hstart).2.2.1
    obtain ⟨-, hwarnings, hdrain⟩ := hcourse.kept (by simp [hphase])
    refine finish_truthful (finish_of_proceed hdrain hend) ?_
    rw [hwarnings]
    exact (warnings_of_start hstart).imp_right (hcourse.short hstart)

/-- A pass that ends settles the state. -/
theorem settled (h : Ending d work (.ok report)) :
    work.state = .converged ∨ work.state = .degraded := by
  cases h with
  | finished _ _ _ hend =>
    obtain ⟨target, hfinish⟩ := proceed_finished hend
    exact finish_settled hfinish

/-- **A pass adds itself to what the record says of those before it.** -/
theorem tally (h : Ending d work (.ok report)) :
    work.tally = (some report,
      if report.state = .converged then 0 else d.consecutiveDegradedPasses + 1) := by
  cases h with
  | finished hstart hcourse _ hend =>
    have hphase := (start_planned hstart).2.2.1
    obtain ⟨htally, -, -⟩ := hcourse.kept (by simp [hphase])
    have hcount : _ = d.consecutiveDegradedPasses :=
      congrArg Prod.snd (htally.trans (tally_of_start hstart))
    obtain ⟨target, hfinish⟩ := proceed_finished hend
    rw [finish_tally hfinish, ← hcount]
    rfl

end Ending

end Pass

end FleetControl
