import FleetControl.Simulation.Session

/-!
# A service for operators

A service keeps a control plane with a simulated container engine and answers requests, each
written on a line: the method, the address and, where there is one, a JSON payload. Whenever the
reconcile interval has passed, the next request finds all deployments swept.
-/

namespace FleetControl

open Simulation

/-- A control plane that answers requests. -/
structure Service where
  /-- The control plane. -/
  bench : Bench
  /-- Milliseconds between sweeps. -/
  interval : Nat
  /-- When the next sweep is due. -/
  nextSweep : Nat

namespace Service

/-- The service that a configuration sets up, at a time in milliseconds. -/
def ofConfig (c : Config) (entropy : UInt64) (now : Nat) : Except Region.Error Service := do
  let control ← Control.State.ofConfig c entropy (now / 1000)
  let interval := 1000 * c.reconcile.intervalSecs.toNat
  return { bench := { control }, interval, nextSweep := now + interval }

/-- Set the wall clock. -/
def setClock (s : Service) (now : Nat) : Service :=
  { s with bench := { s.bench with control := { s.bench.control with wall := now / 1000 } } }

/-- Sweep all deployments if it is time. -/
def sweepIfDue (s : Service) (now : Nat) : Service :=
  if now < s.nextSweep then s
  else
    let session := Session.complete s.bench [.single fun _ => .sweep fun _ => ()]
    { s with bench := session.bench, nextSweep := now + s.interval }

/-- The request that a line writes. -/
def request (line : String) : Api.HttpRequest :=
  let (method, rest) := line.toList.span (· != ' ')
  let (uri, rest) := (rest.drop 1).span (· != ' ')
  let body := rest.drop 1
  { method := String.ofList method
    uri := String.ofList uri
    contentType := some "application/json"
    payload := if body.isEmpty then .empty else .raw (String.ofList body) }

/-- An answer on a line: the status and the body. -/
def render (r : Api.Response) : String :=
  match r.body with
  | .json j => Nat.repr r.status ++ " " ++ j.compress
  | .empty | .text => Nat.repr r.status

/-- Answer a request at a time in milliseconds. -/
def answer (s : Service) (now : Nat) (line : String) : Service × String :=
  let s := (s.setClock now).sweepIfDue now
  let session := Session.complete s.bench [.single fun _ => Command.http (request line) id]
  let text := match session.clients.head?.bind (·.replies.head?) with
    | some (response, _) => render response
    | none => ""
  ({ s with bench := session.bench }, text)

end Service

end FleetControl
