import FleetControl.Api.Route
import FleetControl.Text.Hex

/-!
# Commands of a session

A session works on a bench: the control plane and, beside it, a record of its own to run passes
on. A command either acts at once, or starts something on the bench that takes time and replies
when it is over. The type of the replies is up to the session.
-/

namespace FleetControl.Simulation

open Control

/-- What a session works on. -/
structure Bench where
  /-- The control plane. -/
  control : State
  /-- The record beside the control plane. -/
  held : Option Deployment := none
  /-- The id that the last submission gave. -/
  lastId : String := ""
  /-- Number of ids generated so far. -/
  generated : Nat := 0

/-- The id with a number: 32 hexadecimal digits. -/
def generatedId (n : Nat) : String :=
  let digits := Nat.toDigits 16 n
  "dep-" ++ String.ofList (List.replicate (32 - digits.length) '0' ++ digits)

/-- A fresh id. -/
def Bench.freshId (b : Bench) : Bench × String :=
  ({ b with generated := b.generated + 1 }, generatedId b.generated)

/-- A command, with the reply it gives. -/
inductive Command (ρ : Type) where
  /-- Act at once. -/
  | act (run : Bench → Bench × ρ)
  /-- Start a process and wait for its answer. -/
  | call (start : State → String → State × ProcId) (reply : Answer → Bench → Bench × ρ)
  /-- Run a pass on a record, which may be cancelled after some time; gives the record after it. -/
  | pass (record : Deployment) (cancelAfter : Option Nat)
      (reply : Deployment → Answer → Bench → Bench × ρ)
  /-- Remove the instances of a record. -/
  | drain (record : Deployment) (reply : Answer → Bench → Bench × ρ)
  /-- Run a pass of every deployment. -/
  | sweep (reply : List (String × Answer) → ρ)
  /-- Call the container engine for a node. -/
  | perform (kind : DispatchKind) (nodeId : String) (effect : Engine → Engine × ρ)
  /-- Wait. -/
  | pause (ms : Nat) (reply : Option ρ)
  /-- Run a pass of every deployment again and again, until a stop. -/
  | loop (interval stop : Nat) (reply : ρ)

/-- A step of a session: a command, or steps that start together, each after a delay. -/
inductive Step (ρ : Type) where
  | single (command : Bench → Command ρ)
  | together (actions : List (Nat × Step ρ)) (reply : List (ρ × Nat) → ρ)

namespace Command

variable {ρ : Type}

/-- Submit a request. -/
def submit (request : Request) (reply : Answer → Bench → Bench × ρ) : Command ρ :=
  .call (fun s fresh => s.submit request fresh) reply

/-- Ask for a pass. -/
def trigger (id : String) (reply : Answer → Bench → Bench × ρ) : Command ρ :=
  .call (fun s _ => s.trigger id) reply

/-- Delete a deployment. -/
def delete (id : String) (reply : Answer → Bench → Bench × ρ) : Command ρ :=
  .call (fun s _ => s.delete id) reply

/-- Send a request of an operator. -/
def http (r : Api.HttpRequest) (reply : Api.Response → ρ) : Command ρ :=
  match Api.route r with
  | .query answer => .act fun b => (b, reply (answer b.control))
  | .submit request => submit request fun answer b => (b, reply (Api.submitted b.control answer))
  | .trigger id => trigger id fun answer b => (b, reply (Api.reported answer))
  | .delete id => delete id fun answer b => (b, reply (Api.removed answer))

end Command

end FleetControl.Simulation
