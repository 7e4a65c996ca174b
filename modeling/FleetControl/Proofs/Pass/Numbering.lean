import FleetControl.Proofs.Lists
import FleetControl.Proofs.Pass.Course

/-!
# Sequence numbers of instances

Instances are numbered in the order of their creation, and their ids are made from their numbers.

* `Deployment.Numbered` : the instances of a record stand in the order of their numbers, below the
  next number, and bear the ids that go with the numbers;
* `Pass.Numbered` : so do those of a pass together with those that it still plans, which is kept
  along its course (`Pass.Course.numbered`);
* `Pass.gives_start` : a pass gives the numbers from the next one on to what it creates, and its later
  plans give none;
* `Deployment.instanceId_eq_iff` : the id of an instance tells both the deployment and the number,
  also for ids of deployments with dashes and digits in them.
-/

namespace FleetControl

namespace Deployment

/-- The numbers of the instances. -/
def seqs (d : Deployment) : List Nat := d.instances.map (·.seq)

/-- The instances stand in the order of their numbers, below the next number, and bear the ids that
go with the numbers. -/
structure Numbered (d : Deployment) : Prop where
  ascending : d.seqs.Pairwise (· < ·)
  bounded : ∀ seq ∈ d.seqs, seq < d.nextSeq
  named : ∀ j ∈ d.instances, j.id = d.instanceId j.seq

theorem Numbered.of_sublist {d d' : Deployment} (h : d.Numbered) (hid : d'.id = d.id)
    (hinst : d'.instances.Sublist d.instances) (hseq : d.nextSeq ≤ d'.nextSeq) : d'.Numbered where
  ascending := h.ascending.sublist (hinst.map _)
  bounded := fun _ hn => Nat.lt_of_lt_of_le (h.bounded _ ((hinst.map _).subset hn)) hseq
  named := fun j hj => by
    rw [instanceId, hid]
    exact h.named j (hinst.subset hj)

theorem Numbered.of_eq {d d' : Deployment} (h : d.Numbered) (hid : d'.id = d.id)
    (hinst : d'.instances = d.instances) (hseq : d'.nextSeq = d.nextSeq) : d'.Numbered :=
  h.of_sublist hid (hinst ▸ List.Sublist.refl _) (Nat.le_of_eq hseq.symm)

theorem numbered_new (id : String) (request : Request) (capacity now : Nat) :
    (Deployment.new id request capacity now).Numbered where
  ascending := List.Pairwise.nil
  bounded := fun _ hn => absurd hn List.not_mem_nil
  named := fun _ hj => absurd hj List.not_mem_nil

theorem absorb_nextSeq (d work : Deployment) : (d.absorb work).nextSeq = work.nextSeq := by
  obtain ⟨_, _, _, _, h⟩ := absorb_eq d work
  rw [h]

theorem absorb_id (d work : Deployment) : (d.absorb work).id = work.id := by
  obtain ⟨_, _, _, _, h⟩ := absorb_eq d work
  rw [h]

theorem begun_nextSeq (d : Deployment) : d.begun.nextSeq = d.nextSeq := by
  obtain ⟨state, h⟩ := d.begun_eq
  rw [h]

theorem Numbered.absorb {work : Deployment} (h : work.Numbered) (d : Deployment) :
    (d.absorb work).Numbered :=
  h.of_eq (absorb_id d work) (absorb_instances d work) (absorb_nextSeq d work)

theorem Numbered.begun {d : Deployment} (h : d.Numbered) : d.begun.Numbered := by
  obtain ⟨state, heq⟩ := d.begun_eq
  rw [heq]
  exact h.of_eq rfl rfl rfl

/-! ### Ids of instances -/

theorem dash_notMem_digits (n : Nat) : '-' ∉ (Nat.repr n).toList.reverse := by
  intro h
  have hdigit : '-' ∈ Nat.toDigits 10 n := by simpa [Nat.repr] using h
  exact absurd (Nat.isDigit_of_mem_toDigits (by decide) (by decide) hdigit) (by decide)

/-- The number of an instance is what follows the last dash of its id. -/
theorem instanceId_eq_iff {d d' : Deployment} {m n : Nat} :
    d.instanceId m = d'.instanceId n ↔ d.id = d'.id ∧ m = n := by
  constructor
  · intro h
    -- read backwards, the digits come first, and they end at the first dash
    have hlist := congrArg (fun id => id.toList.reverse) h
    have hdash : "-".toList = ['-'] := rfl
    simp only [instanceId, String.toList_append, hdash, List.reverse_append, List.reverse_singleton,
      List.singleton_append] at hlist
    obtain ⟨hdigits, hid⟩ := Lists.append_cons_inj (dash_notMem_digits m)
      (dash_notMem_digits n) hlist
    exact ⟨String.toList_injective (List.reverse_injective hid),
      Nat.repr_injective (String.toList_injective (List.reverse_injective hdigits))⟩
  · rintro ⟨hid, rfl⟩
    rw [instanceId, hid, instanceId]

end Deployment

namespace Pass

/-- The numbers of the instances and of those that are planned. -/
def seqs (p : Pass) : List Nat := p.work.seqs ++ p.plan.filterMap Dispatch.seq?

/-- The instances and those that are planned stand in the order of their numbers, below the next
number, and the instances bear the ids that go with the numbers. -/
structure Numbered (p : Pass) : Prop where
  ascending : p.seqs.Pairwise (· < ·)
  bounded : ∀ seq ∈ p.seqs, seq < p.work.nextSeq
  named : ∀ j ∈ p.work.instances, j.id = p.work.instanceId j.seq

section

variable {p p₀ : Pass} {d d' : Deployment} {outs : List Outcome} {f : Fleet} {report : Report}

theorem Numbered.work (h : p.Numbered) : p.work.Numbered where
  ascending := (List.pairwise_append.1 h.ascending).1
  bounded := fun _ hn => h.bounded _ (List.mem_append_left _ hn)
  named := h.named

/-- A plan that creates nothing is numbered as the record is. -/
theorem numbered_of_removals (h : p.work.Numbered) {retired : List Instance} {stale : Bool}
    (hplan : p.plan = retired.map (Dispatch.remove · stale)) : p.Numbered := by
  have hseqs : p.seqs = p.work.seqs := by
    rw [seqs, hplan, seqs_map_remove, List.append_nil]
  exact ⟨hseqs ▸ h.ascending, hseqs ▸ h.bounded, h.named⟩

theorem Numbered.take (h : p.Numbered) (now : Nat) {o : Outcome} {rest : List Dispatch}
    (hplan : p.plan = o.dispatch :: rest) : (p.take now o).Numbered := by
  have hid := (take_copyOf now o p).instanceId
  have hrest : (p.take now o).plan = rest := by
    rw [take_plan, hplan, List.tail_cons]
  have hsub : (p.take now o).seqs.Sublist p.seqs ∧
      ∀ j ∈ (p.take now o).work.instances, j.id = p.work.instanceId j.seq := by
    rw [seqs, seqs, hrest, hplan, Deployment.seqs, Deployment.seqs]
    obtain ⟨node, spec, seq, handle, rfl, hinst⟩ | ⟨target, stale, handle, rfl, hinst⟩ |
      ⟨-, hinst⟩ := take_instances now o p
    · -- the instance that is created takes the number that was planned for it
      rw [hinst]
      refine ⟨by simp, fun j hj => ?_⟩
      rcases List.mem_append.1 hj with hj | hj
      · exact h.named j hj
      · rw [List.mem_singleton.1 hj]
    · rw [hinst]
      refine ⟨?_, fun j hj => h.named j (List.mem_of_mem_filter hj)⟩
      exact (List.filter_sublist.map _).append_right _
    · rw [hinst]
      refine ⟨List.Sublist.append_left ?_ _, h.named⟩
      exact (List.sublist_cons_self ..).filterMap _
  refine ⟨h.ascending.sublist hsub.1, fun seq hseq => ?_, fun j hj => ?_⟩
  · rw [take_nextSeq]
    exact h.bounded seq (hsub.1.subset hseq)
  · rw [hid]
    exact hsub.2 j hj

/-- Along a course the numbers stay in order. -/
theorem Course.numbered (h : Course p₀ p outs) (h₀ : p₀.Numbered) : p.Numbered := by
  induction h with
  | opened => exact h₀
  | folded now _ hplan ih => exact ih.take now hplan
  | proceeded f _ _ hnext ih =>
    obtain ⟨-, rfl⟩ := proceed_dispatching hnext
    exact numbered_of_removals ih.work rfl

/-! ### The numbers that a plan gives -/

theorem Course.nextSeq (h : Course p₀ p outs) : p.work.nextSeq = p₀.work.nextSeq := by
  induction h with
  | opened => rfl
  | folded now _ _ ih => rw [take_nextSeq, ih]
  | proceeded f _ _ hnext ih =>
    obtain ⟨-, rfl⟩ := proceed_dispatching hnext
    exact ih

/-- The plan gives the numbers from `n` on, as many as it creates instances. -/
structure Gives (p : Pass) (n count : Nat) : Prop where
  plan : p.plan.filterMap Dispatch.seq? = List.range' n count
  nextSeq : p.work.nextSeq = n + count

/-- The plans after the first give no numbers. -/
theorem gives_proceed {p' : Pass} (h : p.proceed f = .dispatching p') :
    p'.Gives p.work.nextSeq 0 := by
  obtain ⟨-, rfl⟩ := proceed_dispatching h
  exact ⟨seqs_map_remove .., rfl⟩

theorem gives_conclude {p' : Pass} {outcomes : List Outcome}
    (hplan : outcomes.map (·.dispatch) = p.plan) (h : p.conclude f outcomes = .dispatching p') :
    p'.Gives p.work.nextSeq 0 := by
  have hgives := gives_proceed h
  have hnext := (Course.opened.conclude_dispatching hplan h).nextSeq
  exact ⟨hgives.plan.trans rfl, hnext⟩

theorem Gives.launch {p' : Pass} {n count : Nat} (hp : p.Gives n count)
    (h : p.launch f = .dispatching p') : p'.Gives n count := by
  unfold Pass.launch at h
  split at h
  · next hempty =>
    -- a plan with nothing in it gives no numbers
    have hcount : count = 0 := by
      have := congrArg List.length hp.plan
      rw [List.isEmpty_iff.1 hempty, List.length_range'] at this
      exact this.symm
    have hgives := gives_proceed h
    subst hcount
    exact ⟨hgives.plan, hgives.nextSeq.trans hp.nextSeq⟩
  · cases h
    exact hp

/-- A pass begins by giving the next numbers to what it plans to create. -/
theorem gives_start {selector : Placement.Selector} (h : start f d = .planned p selector) :
    ∃ count, p.Gives d.nextSeq count := by
  obtain ⟨-, -, -, hplan, -⟩ := start_planned h
  cases hplan with
  | remove victims _ _ hplan hseq => exact ⟨0, by rw [hplan, seqs_map_remove]; rfl, hseq⟩
  | create election targets _ _ _ hplan hseq =>
    exact ⟨targets.length, by rw [hplan, seqs_creations], hseq⟩

theorem numbered_start {selector : Placement.Selector} (hd : d.Numbered)
    (h : start f d = .planned p selector) : p.Numbered := by
  obtain ⟨hcopy, hinst, -⟩ := start_planned h
  obtain ⟨count, hgives⟩ := gives_start h
  have hwork : p.work.Numbered := by
    refine hd.of_sublist hcopy.id ?_ (hgives.nextSeq ▸ Nat.le_add_right ..)
    exact hinst ▸ dropLost_sublist ..
  have hbelow : ∀ seq ∈ p.work.seqs, seq < d.nextSeq := fun seq hseq => by
    rw [Deployment.seqs, hinst] at hseq
    exact hd.bounded seq (((dropLost_sublist ..).map _).subset hseq)
  refine ⟨?_, fun seq hseq => ?_, hwork.named⟩
  · rw [Pass.seqs, hgives.plan, List.pairwise_append]
    refine ⟨hwork.ascending, List.pairwise_lt_range', fun a ha b hb => ?_⟩
    exact Nat.lt_of_lt_of_le (hbelow a ha) (List.mem_range'_1.1 hb).1
  · rw [Pass.seqs, hgives.plan] at hseq
    rcases List.mem_append.1 hseq with hseq | hseq
    · exact hwork.bounded seq hseq
    · exact hgives.nextSeq ▸ (List.mem_range'_1.1 hseq).2

theorem numbered_finished (h : p.Numbered) (hend : p.proceed f = .finished d' report) :
    d'.Numbered := by
  obtain ⟨hcopy, hinst, hseq⟩ := finished_eq hend
  exact h.work.of_eq hcopy.id hinst hseq

end

end Pass

end FleetControl
