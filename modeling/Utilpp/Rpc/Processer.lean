import Utilpp.Handle
import Utilpp.Lib.Transition
import Mathlib.Logic.Function.Basic

/-!
# The JSON-RPC processer

`FJRPCProcesser`: requests are handed to `SendRPCContentDelegate`, kept in `requestMap` until
their response arrives, and cancelled on demand. `SendRequest` is two events, because other
events can happen while the delegate has not returned: the transport may call back into the
processer or run in another thread. Request objects are numbered in the order in which they are
sent; a number stands for the `shared_ptr`.
-/

namespace Utilpp.Rpc

open Lib

/-- `RPCRequest`. -/
structure RPCRequest where
  id : Option UInt32
  method : List Char
  params : List Char
  deriving DecidableEq, Repr

/-- `RPCResponse`. -/
structure RPCResponse where
  id : Option UInt32
  result : List Char
  deriving DecidableEq, Repr

/-- `ERPCParseError`. -/
inductive ERPCParseError where
  | ok
  | parseError
  | invalidRequest
  | internalError
  deriving DecidableEq, Repr

/-- `IRPCPaser::ParseResult`. -/
inductive ParseResult where
  | error (error : ERPCParseError)
  | request (request : RPCRequest)
  | response (response : RPCResponse)
  deriving DecidableEq, Repr

/-- What is given to `SendRPCContentDelegate`. -/
inductive Content where
  | request (call : Nat)
  | event (request : RPCRequest)
  | response (response : RPCResponse)
  | methodNotFound (id : UInt32)
  | errorParse (error : ERPCParseError)
  deriving DecidableEq, Repr

/-- `RPCInterfaceFactory::RPCInfos` in its order of iteration: the name of a group and the names
of its methods. -/
abbrev RPCInfos := List (List Char × List (List Char))

/-- The processer with its calls to the delegate that have not returned (`sending`, with the
number of the handle) and the record of what it gave to the delegate and to the groups. -/
structure Processer where
  counter : UInt32 := 0
  interfaces : List (List Char) := []
  requests : List RPCRequest := []
  sending : Nat → Option UInt32 := fun _ => none
  requestMap : UInt32 → Option Nat := fun _ => none
  handed : List Content := []
  received : List (List Char × RPCRequest) := []
  dispatched : List (Nat × RPCResponse) := []

/-- `std::error_code`. -/
inductive ErrorCode where
  | none
  | invalidArgument
  deriving DecidableEq, Repr

/-- How a function ends: with a result, with an exception, or undefined. -/
inductive Outcome (α : Type) where
  | done (result : α)
  | thrown
  | undefined

/-- The result, when there is one. -/
def Outcome.result {α : Type} : Outcome α → Option α
  | .done result => some result
  | _ => none

/-! ## Groups -/

/-- `IRPCProcesser::AddGroupRPC`. -/
def Processer.addGroupRPC (infos : RPCInfos) (s : Processer) (groupName : List Char) :
    Processer × Bool :=
  if groupName ∈ s.interfaces then (s, true)
  else if groupName ∈ infos.map Prod.fst then
    ({ s with interfaces := groupName :: s.interfaces }, true)
  else (s, false)

/-- What `GetInterfaceByMethodName` returns; `undefined` when it reads through a null pointer or
`end()->second`. -/
inductive Interface where
  | found (groupName : List Char)
  | null
  | undefined
  deriving DecidableEq, Repr

/-- A group that knows the method was found. -/
def Interface.isFound : Interface → Bool
  | .found _ => true
  | _ => false

/-- `IRPCProcesser::GetInterfaceByMethodName`. The name is a C string: it ends at a null
character. -/
def Processer.getInterfaceByMethodName (infos : RPCInfos) (s : Processer) (name : List Char) :
    Interface :=
  -- the registry is made for the first group that is registered
  if infos.isEmpty then .undefined
  else
    match infos.find? (fun info => info.2.contains (name.takeWhile (· ≠ '\x00'))) with
    | none => .null
    | some info => if info.1 ∈ s.interfaces then .found info.1 else .undefined

/-! ## Sending -/

/-- `FJRPCProcesser::SendRequest` up to its call of the delegate. -/
def Processer.sendRequest (s : Processer) (request : RPCRequest) : Processer :=
  let handle := drawID s.counter
  let call := s.requests.length
  { s with
    counter := handle.2
    requests := s.requests ++ [{ request with id := some handle.1 }]
    sending := Function.update s.sending call (some handle.1)
    handed := s.handed ++ [.request call] }

/-- The rest of `SendRequest`, when the delegate returns; the result is the handle, or `none` for
`NullHandle`. -/
def Processer.sendReturned (s : Processer) (call : Nat) (id : UInt32) (ok : Bool) :
    Processer × Option UInt32 :=
  let s := { s with sending := Function.update s.sending call none }
  if !ok then (s, none)
  -- `try_emplace` finds the number of a request that still waits
  else if (s.requestMap id).isSome then (s, none)
  else ({ s with requestMap := Function.update s.requestMap id (some call) }, some id)

/-- `FJRPCProcesser::CancelRequest`. -/
def Processer.cancelRequest (s : Processer) (id : UInt32) : Processer × Option Nat :=
  match s.requestMap id with
  | none => (s, none)
  | some call => ({ s with requestMap := Function.update s.requestMap id none }, some call)

/-- `FJRPCProcesser::SendEvent`. -/
def Processer.sendEvent (s : Processer) (request : RPCRequest) : Processer :=
  { s with handed := s.handed ++ [.event request] }

/-- `FJRPCProcesser::SendResponse`. -/
def Processer.sendResponse (s : Processer) (id : UInt32) (response : RPCResponse) : Processer :=
  { s with handed := s.handed ++ [.response { response with id := some id }] }

/-! ## Receiving -/

/-- `OnRecevRPC` on a response whose request was taken from `requestMap`; `handled` is what the
group's `OnResponseRecv` returns. -/
def Processer.recevResp (infos : RPCInfos) (s : Processer) (response : RPCResponse) (call : Nat)
    (handled : Bool) : Outcome (Processer × ErrorCode) :=
  match s.requests[call]? with
  | none => .undefined
  | some rpcReq =>
      match s.getInterfaceByMethodName infos rpcReq.method with
      | .undefined => .undefined
      | .null => .done (s, .invalidArgument)
      | .found _ =>
          .done ({ s with dispatched := s.dispatched ++ [(call, response)] },
            if handled then .none else .invalidArgument)

/-- `OnRecevRPC` on a request; `handled` is what the group's `OnRequestRecv` returns. The method
is not found: `GetID` throws when the request has no id. -/
def Processer.recevReq (infos : RPCInfos) (s : Processer) (request : RPCRequest)
    (handled : Bool) : Outcome (Processer × ErrorCode) :=
  match s.getInterfaceByMethodName infos request.method with
  | .undefined => .undefined
  | .found group =>
      .done ({ s with received := s.received ++ [(group, request)] },
        if handled then .none else .invalidArgument)
  | .null =>
      match request.id with
      -- `GetID` throws
      | none => .thrown
      | some id =>
          .done ({ s with handed := s.handed ++ [.methodNotFound id] }, .invalidArgument)

/-- `FJRPCProcesser::OnRecevRPC` behind the parser. -/
def Processer.onRecevRPC (infos : RPCInfos) (s : Processer) (result : ParseResult)
    (handled : Bool) : Outcome (Processer × ErrorCode) :=
  match result with
  | .response response =>
      match response.id with
      | none => .done (s, .invalidArgument)
      | some id =>
          match s.requestMap id with
          | none => .done (s, .invalidArgument)
          | some call =>
              -- the request leaves the map before its group is looked up
              Processer.recevResp infos
                { s with requestMap := Function.update s.requestMap id none } response call handled
  | .request request => s.recevReq infos request handled
  | .error error =>
      .done ({ s with handed := s.handed ++ [.errorParse error] }, .invalidArgument)

/-! ## Events -/

/-- What happens to a processer. `sendReturned` is the return of the delegate's call for a
request. -/
inductive Event where
  | addGroupRPC (groupName : List Char)
  | sendRequest (request : RPCRequest)
  | sendReturned (call : Nat) (ok : Bool)
  | sendEvent (request : RPCRequest)
  | sendResponse (id : UInt32) (response : RPCResponse)
  | cancelRequest (id : UInt32)
  | recevRPC (result : ParseResult) (handled : Bool)

/-- One event. There is no next state when the event is not possible (a return without a call)
or ends in an exception or undefined. -/
def step (infos : RPCInfos) (s : Processer) : Event → Option Processer
  | .addGroupRPC groupName => some (s.addGroupRPC infos groupName).1
  | .sendRequest request => some (s.sendRequest request)
  | .sendReturned call ok => (s.sending call).map fun id => (s.sendReturned call id ok).1
  | .sendEvent request => some (s.sendEvent request)
  | .sendResponse id response => some (s.sendResponse id response)
  | .cancelRequest id => some (s.cancelRequest id).1
  | .recevRPC result handled => (s.onRecevRPC infos result handled).result.map Prod.fst

end Utilpp.Rpc
