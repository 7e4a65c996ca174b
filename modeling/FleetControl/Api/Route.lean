import FleetControl.Api.MediaType
import FleetControl.Control.Step
import FleetControl.Json.Reader
import FleetControl.Text.Percent
import FleetControl.Wire.Deployment

/-!
# Requests of operators

Operators ask over HTTP for deployments, regions and nodes. `Api.route` reads a request and says
what is to be done: answer from the state of the control plane, or start a process there and answer
when it is over, with `Api.submitted`, `Api.reported` or `Api.removed`.

Successful answers are wrapped as `success` and `data`, failures as `success` and `error`.
-/

namespace FleetControl.Api

open Data Control

/-- What a request carries. -/
inductive Payload where
  | empty
  | raw (text : String)
  | data (d : Datum)

/-- A request. -/
structure HttpRequest where
  /-- The method. -/
  method : String
  /-- The address. -/
  uri : String
  /-- The header that names the type of the payload. -/
  contentType : Option String := none
  /-- The payload. -/
  payload : Payload := .empty

/-- What an answer carries. -/
inductive Body where
  | empty
  | json (j : Json)
  /-- A text for humans. -/
  | text

/-- An answer. -/
structure Response where
  /-- The status code. -/
  status : Nat
  /-- The body. -/
  body : Body := .empty

/-- A successful answer. -/
def success (status : Nat) (data : Json) : Response :=
  ⟨status, .json (.object [("success", .bool true), ("data", data)])⟩

/-- A failure. -/
def failure (status : Nat) (message : String) : Response :=
  ⟨status, .json (.object [("success", .bool false), ("error", .text message)])⟩

/-- The failure of a call. -/
def callFailure (e : CallError) : Response :=
  match e with
  | .region _ => failure 400 e.message
  | .deploymentNotFound _ => failure 404 e.message

/-! ### Answers -/

/-- The answer of a process, where `ok` gives the answer of one that went well. A process that was
aborted sends no answer and its connection is dropped; the status 500 stands for that. -/
def ofAnswer (ok : Answer → Option Response) (answer : Answer) : Response :=
  match answer with
  | .failed e => callFailure e
  | answer => (ok answer).getD ⟨500, .text⟩

/-- The answer to a submission. -/
def submitted (s : State) : Answer → Response :=
  ofAnswer fun
    | .accepted id =>
      let state := ((s.record? id).map (·.state)).getD .pending
      let instances := ((s.record? id).map (·.instances.length)).getD 0
      some <| success 201 <| .object [("deployment_id", .text id), ("state", .text state.word),
        ("instances", .number instances)]
    | _ => none

/-- The answer to a pass that was asked for. -/
def reported : Answer → Response :=
  ofAnswer fun
    | .reported report => some (success 200 report.toJson)
    | _ => none

/-- The answer to a deletion. -/
def removed : Answer → Response :=
  ofAnswer fun
    | .deleted final => some (success 200 final.toJson)
    | _ => none

/-- The listed deployments. -/
def listDeployments (s : State) : Response :=
  success 200 (.list (s.records.map Deployment.toJson))

/-- One deployment. -/
def showDeployment (id : String) (s : State) : Response :=
  match s.record? id with
  | some d => success 200 d.toJson
  | none => failure 404 "deployment not found"

/-- All regions. -/
def listRegions (s : State) : Response :=
  success 200 (.list (s.tree.views.map Region.View.toJson))

/-- The segment that stands for the root region. -/
def rootSegment : String := "_"

/-- One region. -/
def showRegion (segment : String) (s : State) : Response :=
  let path := if segment = rootSegment then "" else segment
  match s.tree.resolveText path with
  | .error e => failure 400 e.message
  | .ok id =>
    match id.bind s.tree.view? with
    | some view => success 200 view.toJson
    | none => failure 404 "region not found"

/-- All nodes. -/
def listNodes (s : State) : Response := success 200 (.list (s.registry.list.map Node.toJson))

/-! ### Routes -/

/-- What a request asks for. -/
inductive Route where
  /-- An answer from the state of the control plane. -/
  | query (answer : State → Response)
  /-- A submission. -/
  | submit (request : Request)
  /-- A pass of a deployment. -/
  | trigger (id : String)
  /-- The end of a deployment. -/
  | delete (id : String)

/-- A request that is answered at once. -/
def fixed (response : Response) : Route := .query fun _ => response

/-- No such address. -/
def notFound : Route := fixed ⟨404, .empty⟩

/-- The method is not known at the address. -/
def methodNotAllowed : Route := fixed ⟨405, .empty⟩

/-- The answer without its body. -/
def Route.headOnly : Route → Route
  | .query answer => .query fun s => { answer s with body := .empty }
  | route => route

/-- A question, which may also be asked for its head alone. -/
def question (method : String) (route : Route) (otherwise : Route) : Route :=
  if method = "GET" then route
  else if method = "HEAD" then route.headOnly
  else otherwise

/-- Use a segment of the path, decoded. -/
def withSegment (segment : List Char) (route : String → Route) : Route :=
  match Text.Percent.decode segment with
  | some text => route text
  | none => fixed ⟨400, .text⟩

/-- How a deployment request is read. -/
def requestDecoder : Decoder Request :=
  (Request.shape Json.Reader.dialect).decode Json.Reader.dialect

/-- The deployment request that a request carries. -/
def readRequest : Payload → Except Fault Request
  | .empty => .error .malformed
  | .raw text => Json.Reader.decode requestDecoder text
  | .data d => requestDecoder d

/-- A submission. The type of the payload is looked at before the payload. -/
def submission (r : HttpRequest) : Route :=
  if !((r.contentType.bind MediaType.read).any MediaType.isJson) then fixed ⟨415, .text⟩
  else match readRequest r.payload with
    | .ok request => .submit request
    | .error .malformed => fixed ⟨400, .text⟩
    | .error .mismatched => fixed ⟨422, .text⟩

/-- A character of the scheme of an address. -/
def isSchemeChar (c : Char) : Bool := c.isAlphanum || "+-.~".toList.contains c

/-- The start of an address, up to its query or fragment. -/
def beforeQuery (cs : List Char) : List Char := cs.takeWhile fun c => c != '?' && c != '#'

/-- What follows the scheme and the host of an address that names both. -/
def afterHost (cs : List Char) : Option (List Char) :=
  match cs.span isSchemeChar with
  | (_, ':' :: '/' :: '/' :: rest) => some (rest.dropWhile fun c => !"/?#".toList.contains c)
  | _ => none

/-- The path of an address, without query and fragment. An address that starts with a slash is a
path itself, one with scheme and host has a path behind them, and any other has none. -/
def pathOf (uri : String) : Option (List Char) :=
  match uri.toList with
  | '/' :: rest => some (beforeQuery ('/' :: rest))
  | cs =>
    (afterHost cs).map fun rest =>
      match beforeQuery rest with
      | [] => ['/']
      | path => path

/-- The segments of a path that starts with a slash. -/
def segments (path : List Char) : Option (List (List Char)) :=
  match path with
  | '/' :: rest => some (rest.splitOn '/')
  | _ => none

/-- What is asked for under the prefix of the interface. -/
def routeSegments (r : HttpRequest) : List String → List (List Char) → Route
  | ["deployments"], _ =>
    question r.method (.query listDeployments) <|
      if r.method = "POST" then submission r else methodNotAllowed
  | ["deployments", _], [_, id] =>
    question r.method (withSegment id fun id => .query (showDeployment id)) <|
      if r.method = "DELETE" then withSegment id .delete else methodNotAllowed
  | ["deployments", _, "reconcile"], [_, id, _] =>
    if r.method = "POST" then withSegment id .trigger else methodNotAllowed
  | ["regions"], _ => question r.method (.query listRegions) methodNotAllowed
  | ["regions", _], [_, path] =>
    question r.method (withSegment path fun path => .query (showRegion path)) methodNotAllowed
  | ["nodes"], _ => question r.method (.query listNodes) methodNotAllowed
  | _, _ => notFound

/-- What a request asks for. The last segment may not be empty. -/
def route (r : HttpRequest) : Route :=
  match (pathOf r.uri).bind segments with
  | some (first :: second :: rest) =>
    if String.ofList first = "api" && String.ofList second = "v1" && rest.getLast? != some [] then
      routeSegments r (rest.map String.ofList) rest
    else notFound
  | _ => notFound

end FleetControl.Api
