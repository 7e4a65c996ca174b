import FleetControl.Simulation.Bench

/-!
# Sessions under a virtual clock

A session runs its steps one after the other on a bench. Whatever waits, waits in a queue of turns,
first come first served, or on a timer; the clock moves on only when the queue is empty, to the
earliest timer, and timers that are due together fire in the order they were set.

A client is a thread of the session: the session itself, or one of the actions that start together.
A process that a client has called runs in the turns of the client; the processes of a sweep have
turns of their own.
-/

namespace FleetControl.Simulation

open Control

/-- The place of a client. -/
abbrev ClientId := Nat

/-- Something that is to be done next. -/
inductive Turn where
  /-- A client goes on. -/
  | client (c : ClientId)
  /-- A process goes on. -/
  | proc (p : ProcId)
  /-- A call to the container engine begins or ends. -/
  | call (p : ProcId) (i : Nat)
deriving DecidableEq

/-- Who waits for a process. -/
inductive Owner where
  /-- A client in whose turns the process runs. -/
  | caller (c : ClientId)
  /-- A client that waits for the processes of a sweep. -/
  | sweeper (c : ClientId)

/-- How far a loop is. -/
inductive LoopPhase where
  /-- Waits for the next sweep. -/
  | waiting (next : Nat)
  /-- A sweep is under way. -/
  | sweeping (procs : List (String × ProcId))

/-- What a client waits for. -/
inductive Doing (ρ : Type) where
  | nothing
  | calling (p : ProcId) (reply : Answer → Bench → Bench × ρ)
  | passing (p : ProcId) (slot : SlotId) (signal : Option Nat)
      (reply : Deployment → Answer → Bench → Bench × ρ)
  | sweeping (procs : List (String × ProcId)) (reply : List (String × Answer) → ρ)
  | performing (due : Nat) (effect : Engine → Engine × ρ)
  | pausing (due : Nat) (reply : Option ρ)
  | looping (interval stop : Nat) (phase : LoopPhase) (reply : ρ)
  | gathering (clients : List ClientId) (reply : List (ρ × Nat) → ρ)
  | finished

/-- A thread of a session. -/
structure Client (ρ : Type) where
  /-- The steps to come. -/
  script : List (Step ρ)
  /-- What it waits for. -/
  doing : Doing ρ := .nothing
  /-- Its replies, each with its time, the last first. -/
  replies : List (ρ × Nat) := []
  /-- The client that waits for it. -/
  parent : Option ClientId := none

/-- The state of a session. -/
structure Session (ρ : Type) where
  /-- What it works on. -/
  bench : Bench
  /-- The turns to be taken now. -/
  ready : List Turn := []
  /-- The turns to be taken later, by time. -/
  timers : List (Nat × Turn) := []
  /-- The threads. -/
  clients : List (Client ρ) := []
  /-- Who waits for which process. -/
  owners : List (ProcId × Owner) := []

namespace Session

variable {ρ : Type}

/-- How many steps in a row one turn may take, and how many turns a session. -/
def patience : Nat := 10000000

/-! ### Queue and timers -/

/-- Put a turn at the end of the queue, unless it is in it. -/
def push (s : Session ρ) (t : Turn) : Session ρ :=
  if s.ready.contains t then s else { s with ready := s.ready ++ [t] }

/-- Put a turn behind those that are due no later. -/
def insertTimer (due : Nat) (t : Turn) : List (Nat × Turn) → List (Nat × Turn)
  | [] => [(due, t)]
  | (d, u) :: rest => if d ≤ due then (d, u) :: insertTimer due t rest else (due, t) :: (d, u) :: rest

/-- Take a turn at a time. -/
def setTimer (s : Session ρ) (due : Nat) (t : Turn) : Session ρ :=
  { s with timers := insertTimer due t s.timers }

/-- The time. -/
def now (s : Session ρ) : Nat := s.bench.control.now

/-- Another state of the control plane. -/
def withControl (s : Session ρ) (control : State) : Session ρ :=
  { s with bench := { s.bench with control } }

/-- Change a client. -/
def modifyClient (s : Session ρ) (c : ClientId) (f : Client ρ → Client ρ) : Session ρ :=
  { s with clients := s.clients.modify c f }

/-- Let a client wait for something. -/
def setDoing (s : Session ρ) (c : ClientId) (doing : Doing ρ) : Session ρ :=
  s.modifyClient c fun cl => { cl with doing }

/-- Take a reply to a client, which then waits for nothing. -/
def record (s : Session ρ) (c : ClientId) (reply : Option ρ) : Session ρ :=
  let time := s.now
  s.modifyClient c fun cl => { cl with
    doing := .nothing
    replies := (reply.map fun r => (r, time)).toList ++ cl.replies }

/-! ### Processes -/

/-- The calls of a process that were handed out and have not begun. -/
def issuedCalls (control : State) (p : ProcId) : List Turn :=
  match control.batch? p with
  | some b =>
    b.calls.zipIdx.filterMap fun (call, i) =>
      if call.status matches .issued then some (.call p i) else none
  | none => []

/-- The processes other than `p` that have just been given a lock. -/
def admittedProcs (control : State) (p : ProcId) : List Turn :=
  let holders := control.slots.filterMap (·.holder)
  (holders.filter fun q => q != p && control.isAdmitted q).map .proc

/-- Take a process through its stages until it waits or is over. -/
def advanceAll : Nat → ProcId → State → State
  | 0, _, control => control
  | fuel + 1, p, control =>
    match control.advance p with
    | none => control
    | some control => advanceAll fuel p control

/-- Let a process go on until it waits or is over; what it sets off gets its turns. -/
def drive (s : Session ρ) (p : ProcId) : Session ρ :=
  let control := advanceAll patience p s.bench.control
  (issuedCalls control p ++ admittedProcs control p).foldl push (s.withControl control)

/-- Note who waits for a process. -/
def own (s : Session ρ) (p : ProcId) (owner : Owner) : Session ρ :=
  { s with owners := (p, owner) :: s.owners }

/-- Start a process for a client and let it go on. -/
def startProc (s : Session ρ) (c : ClientId) (p : ProcId) : Session ρ :=
  (s.own p (.caller c)).drive p

/-- Start the processes of a sweep for a client. -/
def startSweep (s : Session ρ) (c : ClientId) : Session ρ × List (String × ProcId) :=
  let (control, started) := s.bench.control.sweep
  let s := started.foldl (fun s (_, p) => (s.own p (.sweeper c)).push (.proc p))
    (s.withControl control)
  (s, started)

/-! ### Clients -/

/-- Begin a command of a client. -/
def beginCommand (c : ClientId) (s : Session ρ) : Command ρ → Session ρ
  | .act run =>
    let (bench, reply) := run s.bench
    { s with bench }.record c (some reply)
  | .call start reply =>
    let (bench, fresh) := s.bench.freshId
    let (control, p) := start bench.control fresh
    ({ s with bench := { bench with control } }.setDoing c (.calling p reply)).startProc c p
  | .pass record cancelAfter reply =>
    let (control, slot) := s.bench.control.addSlot { record, cancelled := cancelAfter == some 0 }
    let (control, p) := control.spawn (.trigger record.id) (.approach slot)
    let signal := cancelAfter.map (s.now + ·)
    let s := (s.withControl control).setDoing c (.passing p slot signal reply)
    let s := match signal with
      | some due => if s.now < due then s.setTimer due (.client c) else s
      | none => s
    s.startProc c p
  | .drain record reply =>
    let (control, slot) := s.bench.control.addSlot { record }
    let (control, p) := control.spawn (.delete record.id) (.approach slot)
    ((s.withControl control).setDoing c (.calling p reply)).startProc c p
  | .sweep reply =>
    let (s, procs) := s.startSweep c
    s.setDoing c (.sweeping procs reply)
  | .perform kind nodeId effect =>
    let control := s.bench.control
    let due := s.now + control.engine.latencyOf nodeId
    let s := (s.withControl { control with engine := control.engine.count kind }).setDoing c
      (.performing due effect)
    if s.now < due then s.setTimer due (.client c) else s
  | .pause ms reply =>
    let due := s.now + ms
    let s := s.setDoing c (.pausing due reply)
    if 0 < ms then s.setTimer due (.client c) else s
  | .loop interval stop reply =>
    let next := s.now + interval
    let stop := s.now + stop
    ((s.setDoing c (.looping interval stop (.waiting next) reply)).setTimer stop
      (.client c)).setTimer next (.client c)

/-- Begin a step of a client. -/
def beginStep (c : ClientId) (s : Session ρ) : Step ρ → Session ρ
  | .single command => beginCommand c s (command s.bench)
  | .together actions reply =>
    let first := s.clients.length
    let clients : List (Client ρ) := actions.map fun (delay, action) => {
      script := [.single fun _ => .pause delay none, action], parent := some c }
    let ids := (List.range actions.length).map (first + ·)
    let s := { s with clients := s.clients ++ clients }.setDoing c (.gathering ids reply)
    ids.foldl (fun s id => s.push (.client id)) s

/-- The first reply of a client that is finished. -/
def reply? (s : Session ρ) (c : ClientId) : Option (ρ × Nat) :=
  match s.clients[c]? with
  | some ⟨_, .finished, replies, _⟩ => replies.head?
  | _ => none

/-- See whether what a client waits for has come. Gives the reply then, if there is one. -/
def poll (c : ClientId) (s : Session ρ) : Doing ρ → Session ρ × Option (Option ρ)
  | .nothing | .finished => (s, none)
  | .calling p reply =>
    match s.bench.control.answer? p with
    | some answer =>
      let (bench, r) := reply answer s.bench
      ({ s with bench }, some (some r))
    | none => (s, none)
  | .passing p slot signal reply =>
    let signalled := signal.all (· ≤ s.now)
    let s := if signal.isSome && signalled then
        s.withControl (s.bench.control.modifySlot slot fun sl => { sl with cancelled := true })
      else s
    match s.bench.control.answer? p, s.bench.control.slots[slot]? with
    | some answer, some sl =>
      if signalled then
        let (bench, r) := reply sl.record answer s.bench
        ({ s with bench }, some (some r))
      else (s, none)
    | _, _ => (s, none)
  | .sweeping procs reply =>
    (s, (s.bench.control.results? procs).map fun answers => some (reply answers))
  | .performing due effect =>
    if s.now < due then (s, none)
    else
      let control := s.bench.control
      let (engine, r) := effect control.engine
      (s.withControl { control with engine }, some (some r))
  | .pausing due reply => (s, if s.now < due then none else some reply)
  | .looping interval stop phase reply =>
    match phase with
    | .waiting next =>
      if stop ≤ s.now then (s, some (some reply))
      else if next ≤ s.now then
        let (s, procs) := s.startSweep c
        ((s.setDoing c (.looping interval stop (.sweeping procs) reply)).push (.client c), none)
      else (s, none)
    | .sweeping procs =>
      match s.bench.control.results? procs with
      | none => (s, none)
      | some _ =>
        if stop ≤ s.now then (s, some (some reply))
        else
          let next := s.now + interval
          ((s.setDoing c (.looping interval stop (.waiting next) reply)).setTimer next
            (.client c), none)
  | .gathering clients reply => (s, (clients.mapM s.reply?).map fun rs => some (reply rs))

/-- Let a client go on until it waits or is finished. -/
def resume : Nat → ClientId → Session ρ → Session ρ
  | 0, _, s => s
  | fuel + 1, c, s =>
    match s.clients[c]? with
    | none => s
    | some client =>
      match client.doing, client.script with
      | .finished, _ => s
      | .nothing, [] =>
        let s := s.setDoing c .finished
        match client.parent with
        | some parent => s.push (.client parent)
        | none => s
      | .nothing, step :: script =>
        resume fuel c (beginStep c (s.modifyClient c fun cl => { cl with script }) step)
      | doing, _ =>
        match poll c s doing with
        | (s, none) => s
        | (s, some reply) => resume fuel c (s.record c reply)

/-! ### Turns -/

/-- Take a turn of a process; when it is over, whoever waits for it goes on. -/
def procTurn (p : ProcId) (s : Session ρ) : Session ρ :=
  let s := s.drive p
  match s.bench.control.answer? p, s.owners.lookup p with
  | some _, some (.caller c) => resume patience c s
  | some _, some (.sweeper c) => s.push (.client c)
  | _, _ => s

/-- Begin a call to the container engine, or end it. -/
def callTurn (p : ProcId) (i : Nat) (s : Session ρ) : Session ρ :=
  match s.bench.control.startCall p i with
  | some control =>
    let s := s.withControl control
    match (control.batch? p).bind (·.calls[i]?) with
    | some ⟨_, .running due _⟩ => s.setTimer due (.call p i)
    | _ => s.push (.proc p)
  | none =>
    match s.bench.control.settleCall p i with
    | some control => (s.withControl control).push (.proc p)
    | none => s

/-- Take a turn. -/
def takeTurn (s : Session ρ) : Turn → Session ρ
  | .client c => resume patience c s
  | .proc p => procTurn p s
  | .call p i => callTurn p i s

/-- Take the next turn, or move the clock to the next timer. None when nothing is left to wait
for. -/
def tick (s : Session ρ) : Option (Session ρ) :=
  match s.ready with
  | t :: ready => some (takeTurn { s with ready } t)
  | [] =>
    match s.timers with
    | [] => none
    | (due, _) :: _ =>
      let (firing, timers) := s.timers.span (·.1 ≤ due)
      let control := (Control.step s.bench.control (.elapse due)).getD s.bench.control
      some { s.withControl control with ready := firing.map (·.2), timers }

/-- Take turns until nothing is left to wait for. -/
def run : Nat → Session ρ → Session ρ
  | 0, s => s
  | fuel + 1, s =>
    match s.tick with
    | some s => run fuel s
    | none => s

/-- The session of a script, run to its end. -/
def complete (bench : Bench) (script : List (Step ρ)) : Session ρ :=
  run patience { bench, clients := [{ script }], ready := [.client 0] }

/-- The replies of a session to its steps, each with its time. -/
def replies (bench : Bench) (script : List (Step ρ)) : List (ρ × Nat) :=
  match (complete bench script).clients with
  | main :: _ => main.replies.reverse
  | [] => []

end Session

end FleetControl.Simulation
