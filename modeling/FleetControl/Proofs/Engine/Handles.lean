import FleetControl.Proofs.Engine

/-!
# The handles of the engine

The engine is used by calls that begin and end, and from outside: containers are killed, nodes fail,
recover and get slower (`Engine.Operation`). A call is counted when it begins and does what it is for
when it ends, so a sequence of operations may be that of calls that overlap.

An operation leaves the containers alone, adds one under the next handle, or takes one away
(`Engine.Operation.effect`). So whatever is done to a new engine, the handles that creations give are
those of the numbers from zero on, however many there are, and none is given twice, not even after
its container has gone; and those containers run that were created and have neither been removed nor
killed since (`Engine.handles_exact`).
-/

namespace FleetControl

namespace Engine

/-- What is done to an engine. -/
inductive Operation where
  /-- A call begins. -/
  | begin (kind : DispatchKind)
  /-- A container is created, when the time of the call is up. -/
  | create (node : Node) (spec : ContainerSpec)
  /-- The container of an instance is removed, when the time of the call is up. -/
  | remove (i : Instance)
  /-- A container is taken away from outside. -/
  | kill (handle : String)
  /-- A node starts to fail. -/
  | fail (nodeId : String)
  /-- A node recovers. -/
  | recover (nodeId : String)
  /-- Calls on a node take a time from now on. -/
  | setLatency (nodeId : String) (ms : Nat)

namespace Operation

/-- The engine after an operation. -/
def apply (e : Engine) : Operation → Engine
  | .begin kind => e.count kind
  | .create node spec => (e.create node spec).1
  | .remove i => (e.remove i).1
  | .kill handle => e.kill handle
  | .fail nodeId => e.fail nodeId
  | .recover nodeId => e.recover nodeId
  | .setLatency nodeId ms => e.setLatency nodeId ms

/-- The handle that the operation gives: that of a creation that succeeds. -/
def given? (e : Engine) : Operation → Option String
  | .create node spec => (e.create node spec).2.toOption
  | _ => none

/-- The handle whose container the operation takes away: that of a removal that succeeds, or the one
that is killed. -/
def freed? (e : Engine) : Operation → Option String
  | .remove i => (e.remove i).2.toOption.map fun _ => i.handle
  | .kill handle => some handle
  | _ => none

end Operation

/-- The engine after a sequence of operations. -/
def run (e : Engine) (ops : List Operation) : Engine := ops.foldl Operation.apply e

/-- The handles that a sequence of operations gives, in order. -/
def given (e : Engine) : List Operation → List String
  | [] => []
  | op :: ops => (op.given? e).toList ++ given (op.apply e) ops

/-- The handles whose containers a sequence of operations takes away, in order. -/
def freed (e : Engine) : List Operation → List String
  | [] => []
  | op :: ops => (op.freed? e).toList ++ freed (op.apply e) ops

variable {e : Engine} {op : Operation} {ops : List Operation} {c : RunningContainer}

@[simp] theorem run_nil : e.run [] = e := rfl

@[simp] theorem run_cons : e.run (op :: ops) = (op.apply e).run ops := rfl

/-! ### Single operations -/

namespace Operation

/-- The operation creates the container. -/
def Makes (op : Operation) (e : Engine) (c : RunningContainer) : Prop :=
  ∃ node spec, op = .create node spec ∧ (e.create node spec).2 = .ok c.handle ∧
    c.nodeId = node.id ∧ c.image = spec.image

/-- What an operation does to the containers and the numbers of handles. -/
inductive Effect (e : Engine) (op : Operation) : Prop
  /-- It leaves both as they are. -/
  | quiet : op.given? e = none → op.freed? e = none → (∀ c, ¬ op.Makes e c) →
      (op.apply e).containers = e.containers → (op.apply e).nextHandle = e.nextHandle → Effect e op
  /-- It gives the next handle to a new container. -/
  | created (c : RunningContainer) : c.handle = handle e.nextHandle → op.given? e = some c.handle →
      op.freed? e = none → (∀ c', op.Makes e c' ↔ c' = c) →
      (op.apply e).containers = e.containers.insert c.handle c →
      (op.apply e).nextHandle = e.nextHandle + 1 → Effect e op
  /-- It takes the container with a handle away. -/
  | freed (h : String) : op.given? e = none → op.freed? e = some h → (∀ c, ¬ op.Makes e c) →
      (op.apply e).containers = e.containers.erase h →
      (op.apply e).nextHandle = e.nextHandle → Effect e op

theorem effect_create (e : Engine) (node : Node) (spec : ContainerSpec) :
    (create node spec).Effect e := by
  cases hfail : e.isFailing node.id with
  | true =>
    refine .quiet ?_ rfl ?_ ?_ ?_
    · simp [given?, Engine.create, hfail, Except.toOption]
    · rintro c ⟨_, _, hop, hok, -, -⟩
      cases hop
      simp [Engine.create, hfail] at hok
    · simp [apply, Engine.create, hfail]
    · simp [apply, Engine.create, hfail]
  | false =>
    refine .created ⟨handle e.nextHandle, node.id, spec.image⟩ rfl ?_ rfl ?_ ?_ ?_
    · simp [given?, Engine.create, hfail, Except.toOption]
    · intro c
      constructor
      · rintro ⟨_, _, hop, hok, hnode, himage⟩
        cases hop
        have hhandle : handle e.nextHandle = c.handle := by simpa [Engine.create, hfail] using hok
        rw [hhandle, ← hnode, ← himage]
      · rintro rfl
        exact ⟨node, spec, rfl, by simp [Engine.create, hfail], rfl, rfl⟩
    · simp [apply, Engine.create, hfail]
    · simp [apply, Engine.create, hfail]

theorem effect_remove (e : Engine) (i : Instance) : (remove i).Effect e := by
  have hmakes : ∀ c, ¬ (remove i).Makes e c := by
    rintro c ⟨node, spec, hop, -⟩
    cases hop
  cases hfail : e.isFailing i.nodeId with
  | true =>
    refine .quiet rfl ?_ hmakes ?_ ?_
    · simp [freed?, Engine.remove, hfail, Except.toOption]
    · simp [apply, Engine.remove, hfail]
    · simp [apply, Engine.remove, hfail]
  | false =>
    refine .freed i.handle rfl ?_ hmakes ?_ ?_
    · simp [freed?, Engine.remove, hfail, Except.toOption]
    · simp [apply, Engine.remove, Engine.kill, hfail]
    · simp [apply, Engine.remove, Engine.kill, hfail]

theorem effect (e : Engine) (op : Operation) : op.Effect e := by
  have hmakes (hop : ∀ node spec, op ≠ .create node spec) (c : RunningContainer) : ¬ op.Makes e c :=
    fun ⟨node, spec, h, _⟩ => hop node spec h
  cases op with
  | begin kind => cases kind <;> exact .quiet rfl rfl (hmakes nofun) rfl rfl
  | create node spec => exact effect_create e node spec
  | remove i => exact effect_remove e i
  | kill h => exact .freed h rfl rfl (hmakes nofun) rfl rfl
  | fail nodeId =>
    have hfail : (e.fail nodeId).containers = e.containers ∧
        (e.fail nodeId).nextHandle = e.nextHandle := by
      unfold Engine.fail
      split <;> exact ⟨rfl, rfl⟩
    exact .quiet rfl rfl (hmakes nofun) hfail.1 hfail.2
  | recover nodeId => exact .quiet rfl rfl (hmakes nofun) rfl rfl
  | setLatency nodeId ms => exact .quiet rfl rfl (hmakes nofun) rfl rfl

end Operation

/-! ### Handles -/

theorem Numbered.mem_running (h : e.Numbered) :
    c ∈ e.running ↔ e.containers.get? c.handle = some c := by
  rw [running, SortedMap.mem_values]
  constructor
  · rintro ⟨k, hk⟩
    rwa [(h k c hk).1]
  · exact fun hc => ⟨_, hc⟩

/-- Containers stay under handles that have been given. -/
theorem Numbered.apply (h : e.Numbered) (op : Operation) : (op.apply e).Numbered := by
  cases op.effect e with
  | quiet _ _ _ hcontainers hnext =>
    rw [Numbered, hcontainers, hnext]
    exact h
  | created c hc _ _ _ hcontainers hnext => exact h.insert hc hcontainers hnext
  | freed k _ _ _ hcontainers hnext =>
    rw [Numbered, hcontainers, hnext]
    exact h.kill k

theorem Numbered.run (h : e.Numbered) (ops : List Operation) : (e.run ops).Numbered := by
  induction ops generalizing e with
  | nil => exact h
  | cons op ops ih => exact ih (h.apply op)

/-- The handles given are those of the next numbers, in order. -/
theorem given_eq (e : Engine) (ops : List Operation) :
    e.given ops = (List.range' e.nextHandle (e.given ops).length).map handle := by
  induction ops generalizing e with
  | nil => rfl
  | cons op ops ih =>
    have hrest := ih (op.apply e)
    cases op.effect e with
    | quiet hgiven _ _ _ hnext | freed _ hgiven _ _ _ hnext =>
      rw [hnext] at hrest
      simpa [given, hgiven] using hrest
    | created c hc hgiven _ _ _ hnext =>
      rw [hnext] at hrest
      simpa [given, hgiven, hc, List.range'_succ] using hrest

/-! ### Containers -/

/-- After an operation those containers run that it creates, and of those before the ones that it
leaves. -/
theorem Numbered.mem_running_apply (h : e.Numbered) (op : Operation) :
    c ∈ (op.apply e).running ↔
      op.Makes e c ∨ c ∈ e.running ∧ op.freed? e ≠ some c.handle := by
  rw [(h.apply op).mem_running, h.mem_running]
  cases op.effect e with
  | quiet _ hfreed hmakes hcontainers _ => simp [hcontainers, hfreed, hmakes]
  | created c' hc' _ hfreed hmakes hcontainers _ =>
    rw [hcontainers, hfreed, hmakes]
    by_cases hc : c.handle = c'.handle
    · rw [hc, SortedMap.get?_insert_self, hc', h.get?_next]
      simp [eq_comm]
    · have hne : c ≠ c' := fun heq => hc (congrArg _ heq)
      simp [SortedMap.get?_insert_of_ne hc, hne]
  | freed k _ hfreed hmakes hcontainers _ =>
    rw [hcontainers, hfreed, SortedMap.get?_erase]
    by_cases hk : c.handle = k
    · simp [hk, hmakes]
    · simp [hk, Ne.symm hk, hmakes]

/-- After a sequence of operations those containers run that were there and those that were created
on the way, without the ones whose handles were freed since. -/
theorem Numbered.mem_running_run (h : e.Numbered) (ops : List Operation) :
    c ∈ (e.run ops).running ↔
      c ∈ e.running ∧ c.handle ∉ e.freed ops ∨
        ∃ before op rest, ops = before ++ op :: rest ∧ op.Makes (e.run before) c ∧
          c.handle ∉ (op.apply (e.run before)).freed rest := by
  induction ops generalizing e with
  | nil => simp [Engine.freed]
  | cons op ops ih =>
    have hfreed : c.handle ∉ e.freed (op :: ops) ↔
        op.freed? e ≠ some c.handle ∧ c.handle ∉ (op.apply e).freed ops := by
      simp [Engine.freed]
    rw [run_cons, ih (h.apply op), h.mem_running_apply op, hfreed]
    constructor
    · rintro (⟨hmade | ⟨hrunning, hkept⟩, hrest⟩ | ⟨before, op', rest, rfl, hmade, hrest⟩)
      · exact .inr ⟨[], op, ops, rfl, hmade, hrest⟩
      · exact .inl ⟨hrunning, hkept, hrest⟩
      · exact .inr ⟨op :: before, op', rest, rfl, hmade, hrest⟩
    · rintro (⟨hrunning, hkept, hrest⟩ | ⟨_ | ⟨_, before⟩, op', rest, hops, hmade, hrest⟩)
      · exact .inl ⟨.inr ⟨hrunning, hkept⟩, hrest⟩
      · obtain ⟨rfl, rfl⟩ := List.cons.inj hops
        exact .inl ⟨.inl hmade, hrest⟩
      · obtain ⟨rfl, rfl⟩ := List.cons.inj hops
        exact .inr ⟨before, op', rest, rfl, hmade, hrest⟩

/-! ### What a new engine promises -/

/-- What holds of a new engine after a sequence of operations. -/
structure HandlesExact (ops : List Operation) : Prop where
  /-- Creations give the handles in the order of their numbers. -/
  numbered : given {} ops = (List.range (given {} ops).length).map handle
  /-- No handle is given twice. -/
  distinct : (given {} ops).Nodup
  /-- Each container is kept under its handle. -/
  keys : (run {} ops).containers.keys = (run {} ops).running.map (·.handle)
  /-- No two containers have the same handle. -/
  once : ((run {} ops).running.map (·.handle)).Nodup
  /-- Those containers run, on the nodes that they were created on, that were created and whose
  handles have neither been removed nor killed since. -/
  running (c : RunningContainer) : c ∈ (run {} ops).running ↔
    ∃ before node spec rest, ops = before ++ .create node spec :: rest ∧
      ((run {} before).create node spec).2 = .ok c.handle ∧
      c.nodeId = node.id ∧ c.image = spec.image ∧
      c.handle ∉ ((run {} before).create node spec).1.freed rest

theorem handles_exact (ops : List Operation) : HandlesExact ops := by
  have hempty : ({} : Engine).Numbered := numbered_of_empty rfl
  have hnumbered : given {} ops = (List.range (given {} ops).length).map handle := by
    simpa [List.range_eq_range'] using given_eq {} ops
  refine ⟨hnumbered, ?_, ?_, ?_, fun c => ?_⟩
  · rw [hnumbered]
    exact List.nodup_range.map handle_injective
  · exact ((hempty.run ops).handles).symm
  · exact (hempty.run ops).nodup_handles
  · rw [hempty.mem_running_run]
    constructor
    · rintro (⟨hrunning, -⟩ | ⟨before, op, rest, rfl, ⟨node, spec, rfl, hmade⟩, hrest⟩)
      · exact absurd hrunning List.not_mem_nil
      · exact ⟨before, node, spec, rest, rfl, hmade.1, hmade.2.1, hmade.2.2, hrest⟩
    · rintro ⟨before, node, spec, rest, rfl, hok, hnode, himage, hrest⟩
      exact .inr ⟨before, .create node spec, rest, rfl, ⟨node, spec, rfl, hok, hnode, himage⟩, hrest⟩

/-- Beyond six digits handles get longer. -/
example : handle 999999 = "sim-999999" ∧ handle 1000000 = "sim-1000000" := by decide +kernel

end Engine

end FleetControl
