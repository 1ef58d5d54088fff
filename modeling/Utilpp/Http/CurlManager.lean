import Utilpp.Lib.Transition
import Mathlib.Logic.Function.Basic

/-!
# The libcurl request manager

`FCurlHttpManager` hands a request from the thread that submits it to the network thread and back
through two queues and a map: `ProcessRequest` enqueues it in `RunningRequests`, the network thread
moves it to `HandlesToRequests` and, when libcurl reports it done, to `FinishedRequests`, and `Tick`
calls its delegate. Afterwards the request object is kept in `WaitToFree` until nobody else refers
to it, and then it is used again.

`TickNetwork` and `Tick` are loops. An event is one iteration of one of their loops, or a call from
outside, so that a run of events also covers what other threads and the delegates do between two
iterations. What libcurl returns is an input of the event. `accepted` and `calls` keep which
submissions were accepted and which delegates were called; a delegate is named by the number of the
submission that it was bound for.
-/

namespace Utilpp.Http

open Lib

/-- The result of a multi handle operation. -/
inductive CURLMcode where
  | ok
  | badEasyHandle
  | other (code : Nat)
  deriving DecidableEq, Repr

/-- The result of a transfer. -/
inductive CURLcode where
  | ok
  | couldntResolveProxy
  | couldntResolveHost
  | couldntConnect
  | other (code : Nat)
  deriving DecidableEq, Repr

/-- `CURLMsg` -/
structure CURLMsg where
  done : Bool
  easyHandle : Nat
  result : CURLcode
  deriving DecidableEq, Repr

/-- `EHttpRequestStatus` -/
inductive HttpRequestStatus where
  | notStarted
  | processing
  | failed
  | failedConnectionError
  | succeeded
  deriving DecidableEq, Repr

/-- `FCurlHttpResponse`, as far as the manager uses it. -/
structure CurlHttpResponse where
  succeeded : Bool
  ready : Bool
  deriving DecidableEq, Repr

/-- `FCurlHttpRequest`, as far as the manager uses it. -/
structure CurlHttpRequest where
  url : String
  easyHandle : Option Nat
  addToMultiResult : CURLMcode
  completionResult : CURLcode
  completed : Bool
  completionStatus : HttpRequestStatus
  response : Option CurlHttpResponse
  delegate : Option Nat
  deriving DecidableEq, Repr

/-- A request object as `NewRequest` makes it. -/
def CurlHttpRequest.new : CurlHttpRequest :=
  { url := "", easyHandle := none, addToMultiResult := .ok, completionResult := .ok,
    completed := false, completionStatus := .notStarted,
    response := some { succeeded := false, ready := false }, delegate := none }

/-- `FCurlHttpRequest::Clear` -/
def CurlHttpRequest.clear (req : CurlHttpRequest) : CurlHttpRequest :=
  { req with
    url := "", completed := false, completionStatus := .notStarted,
    response := req.response.map fun _ => { succeeded := false, ready := false },
    delegate := none }

/-- How `FinishRequest` judges the request: the response it has then, the status, and whether the
delegate is told of a success. -/
def CurlHttpRequest.outcome (creq : CurlHttpRequest) :
    Option CurlHttpResponse × HttpRequestStatus × Bool :=
  match creq.response with
  | some response =>
      let succeeded :=
        if creq.completed then decide (creq.completionResult = .ok) else response.succeeded
      let response := { succeeded := succeeded, ready := true }
      if succeeded then (some response, .succeeded, true)
      else (some response, failureStatus creq.completionResult, false)
  | none => (none, failureStatus creq.completionResult, false)
where
  /-- The `switch` over `CurlCompletionResult`. -/
  failureStatus : CURLcode → HttpRequestStatus
    | .couldntConnect => .failedConnectionError
    | .couldntResolveProxy => .failedConnectionError
    | .couldntResolveHost => .failedConnectionError
    | _ => .failed

/-- A delegate was called, with this success flag. -/
structure DelegateCall where
  delegate : Nat
  succeeded : Bool
  deriving DecidableEq, Repr

/-- The manager with all request objects. `held` are the objects the user has a pointer to,
`nextHandle` and `submissions` number the easy handles and the calls of `ProcessRequest`. -/
structure CurlHttpManager where
  objects : Nat → CurlHttpRequest
  created : Nat
  held : List Nat
  nextHandle : Nat
  submissions : Nat
  runningRequests : List Nat
  handlesToRequests : List (Nat × Nat)
  finishedRequests : List Nat
  waitToFree : List Nat
  freeToUseRequests : List Nat
  accepted : List (Nat × Nat)
  calls : List DelegateCall

namespace CurlHttpManager

/-- A manager that was just made. -/
def init : CurlHttpManager :=
  { objects := fun _ => .new, created := 0, held := [], nextHandle := 0, submissions := 0,
    runningRequests := [], handlesToRequests := [], finishedRequests := [], waitToFree := [],
    freeToUseRequests := [], accepted := [], calls := [] }

/-- A change of one request object. -/
def modify (manager : CurlHttpManager) (req : Nat) (f : CurlHttpRequest → CurlHttpRequest) :
    CurlHttpManager :=
  { manager with objects := Function.update manager.objects req (f (manager.objects req)) }

/-- `NewRequest` -/
def newRequest (manager : CurlHttpManager) : CurlHttpManager :=
  match manager.freeToUseRequests with
  | req :: free =>
      { manager with freeToUseRequests := free, held := req :: manager.held }
  | [] =>
      { manager with
        objects := Function.update manager.objects manager.created .new
        created := manager.created + 1
        held := manager.created :: manager.held }

/-- `FinishRequest` calls the delegate, if one is bound, gives the easy handle back and unbinds the
delegate. -/
def finishRequest (manager : CurlHttpManager) (req : Nat) : CurlHttpManager :=
  let creq := manager.objects req
  let (response, status, succeeded) := creq.outcome
  { manager.modify req fun creq =>
      { creq with
        response := response, completionStatus := status, easyHandle := none, delegate := none }
    with
    calls :=
      match creq.delegate with
      | some delegate => ⟨delegate, succeeded⟩ :: manager.calls
      | none => manager.calls }

/-- `SetupLocalRequest`: the URL of the request is the one the user set, or what `GenerateURL`
makes. `generated` is the result of `curl_url_get`, `none` when `GenerateURL` fails. -/
def setupLocalRequest (url : String) (needURLEncode : Bool) (generated : Option String) :
    Option String :=
  if url = "" ∨ needURLEncode then generated else some url

/-- The request has a delegate of its own for this submission, and its status is `Processing`. -/
def beginRequest (manager : CurlHttpManager) (req : Nat) (url : String) : CurlHttpManager :=
  { manager.modify req fun creq =>
      { creq with
        url := url, completionStatus := .processing, delegate := some manager.submissions }
    with submissions := manager.submissions + 1 }

/-- `InitRequest`. `easyInit` tells whether `curl_easy_init` returns a handle. -/
def initRequest (manager : CurlHttpManager) (req : Nat) (url : String) (easyInit : Bool) :
    CurlHttpManager :=
  { manager.modify req fun creq =>
      { creq with
        url := url, easyHandle := if easyInit then some manager.nextHandle else none }
    with nextHandle := manager.nextHandle + 1 }

/-- `ProcessRequest` for a request with the given URL and a delegate. The second component is the
return value. -/
def processRequest (manager : CurlHttpManager) (req : Nat) (url : String) (needURLEncode : Bool)
    (generated : Option String) (easyInit : Bool) : CurlHttpManager × Bool :=
  let submission := manager.submissions
  let manager := manager.beginRequest req url
  match setupLocalRequest url needURLEncode generated with
  -- the status stays `Processing`, and the delegate is not called
  | none => (manager, false)
  | some url =>
      let manager := manager.initRequest req url easyInit
      -- the request fails at once, without a response
      if url = "" then
        ((manager.modify req fun creq => { creq with response := none }).finishRequest req, false)
      else
        ({ manager with
            runningRequests := manager.runningRequests ++ [req]
            accepted := (req, submission) :: manager.accepted }, true)

/-- One iteration of `HttpThreadAddTask`. `curl_multi_add_handle` refuses a null handle; otherwise
`addResult` is what it returns. -/
def addTask (manager : CurlHttpManager) (addResult : CURLMcode) : CurlHttpManager :=
  match manager.runningRequests with
  | [] => manager
  | req :: running =>
      let manager := { manager with runningRequests := running }
      match (manager.objects req).easyHandle with
      | none => manager.modify req fun creq => { creq with addToMultiResult := .badEasyHandle }
      | some handle =>
          let manager := manager.modify req fun creq => { creq with addToMultiResult := addResult }
          if addResult = .ok then
            { manager with
              handlesToRequests :=
                (manager.handlesToRequests.filter fun entry => entry.1 ≠ handle) ++ [(handle, req)] }
          -- the request is in no queue any more
          else manager

/-- One message of `curl_multi_info_read`. The response code of the request is logged, so that a
request without a response makes the behaviour undefined. -/
def readMessage (manager : CurlHttpManager) (message : CURLMsg) : Option CurlHttpManager :=
  if message.done then
    match manager.handlesToRequests.find? fun entry => entry.1 = message.easyHandle with
    -- a handle that the map does not know is ignored
    | none => some manager
    | some (handle, req) =>
        if (manager.objects req).response = none then none
        else
          some
            { manager.modify req fun creq =>
                { creq with completed := true, completionResult := message.result }
              with
              finishedRequests := manager.finishedRequests ++ [req]
              handlesToRequests := manager.handlesToRequests.filter fun entry => entry.1 ≠ handle }
  else some manager

/-- One iteration of the loop of `Tick` over `FinishedRequests`. -/
def finishNext (manager : CurlHttpManager) : CurlHttpManager :=
  match manager.finishedRequests with
  | [] => manager
  | req :: finished =>
      let manager := { manager with finishedRequests := finished }.finishRequest req
      { manager with waitToFree := manager.waitToFree.insert req }

/-- The queues and the map that hold a request while it is processed. -/
def places (manager : CurlHttpManager) : List Nat :=
  manager.runningRequests ++ manager.handlesToRequests.map Prod.snd ++ manager.finishedRequests

/-- One iteration of the loop of `Tick` over `WaitToFree`. `use_count() == 1` says that the pointer
in `WaitToFree` is the only one. -/
def recycle (manager : CurlHttpManager) (req : Nat) : CurlHttpManager :=
  if req ∈ manager.waitToFree ∧ req ∉ manager.held ∧ req ∉ manager.places then
    { manager.modify req CurlHttpRequest.clear with
      freeToUseRequests := manager.freeToUseRequests ++ [req]
      waitToFree := manager.waitToFree.erase req }
  else manager

/-- `HttpThreadAddTask`; `addResult` is what `curl_multi_add_handle` returns for a request. -/
def httpThreadAddTask (manager : CurlHttpManager) (addResult : Nat → CURLMcode) :
    CurlHttpManager :=
  manager.runningRequests.foldl (fun manager req => manager.addTask (addResult req)) manager

/-- `TickNetwork`. `runningRequestNum` is what `curl_multi_perform` counts and `messages` is what
`curl_multi_info_read` returns. -/
def tickNetwork (manager : CurlHttpManager) (addResult : Nat → CURLMcode)
    (runningRequestNum : Int) (messages : List CURLMsg) : Option CurlHttpManager :=
  let manager := manager.httpThreadAddTask addResult
  let running := manager.handlesToRequests.length
  -- messages are read only when the number of transfers has changed
  if running > 0 ∧ (runningRequestNum = 0 ∨ runningRequestNum ≠ running) then
    messages.foldlM readMessage manager
  else some manager

/-- `Tick` when the delegates make no calls. -/
def tick (manager : CurlHttpManager) : CurlHttpManager :=
  let manager := manager.finishedRequests.foldl (fun manager _ => manager.finishNext) manager
  manager.waitToFree.foldl recycle manager

end CurlHttpManager

/-- A call from outside, or one iteration of a loop of `TickNetwork` or `Tick`. -/
inductive Event where
  | newRequest
  | release (req : Nat)
  | processRequest (req : Nat) (url : String) (needURLEncode : Bool) (generated : Option String)
      (easyInit : Bool)
  | addTask (addResult : CURLMcode)
  | readMessage (message : CURLMsg)
  | finishNext
  | recycle (req : Nat)

/-- The manager after one event. -/
def step (manager : CurlHttpManager) : Event → Option CurlHttpManager
  | .newRequest => some manager.newRequest
  | .release req => some { manager with held := manager.held.erase req }
  | .processRequest req url needURLEncode generated easyInit =>
      some (manager.processRequest req url needURLEncode generated easyInit).1
  | .addTask addResult => some (manager.addTask addResult)
  | .readMessage message => manager.readMessage message
  | .finishNext => some manager.finishNext
  | .recycle req => some (manager.recycle req)

end Utilpp.Http
