import Utilpp.Lib.Transition
import Mathlib.Logic.Function.Basic

/-!
# Sending over a websocket

`FWebsocketEndpointLWS::SendData` takes a buffer of the pool, fills it and puts it into the send
queue. It may be called by several threads at a time. When the connection can be written,
libwebsockets calls `LWSCallback`, which takes a buffer of the queue, hands it to `lws_write` and
gives it back to the pool. Both queues are concurrent: what one thread puts in comes out in its
order, and between the calls of different threads there is no order.

A buffer is known by the number of its allocation. Every operation on a queue and on a buffer is a
step of its own, and the steps of the threads come in any order. `none` is a step that the thread
cannot take where it is. `lwsPre` is `LWS_PRE`, the room that `lws_write` needs in front.
-/

namespace Utilpp.Websocket

open Lib

/-- Where a call of `SendData` is. -/
inductive SendPhase where
  | taken
  | cleared
  | padded
  | filled
  | queued
  deriving DecidableEq

/-- A call of `SendData` that is running. -/
structure Sending where
  buf : Nat
  content : List UInt8
  phase : SendPhase
  deriving DecidableEq

/-- Where `LWS_CALLBACK_CLIENT_WRITEABLE` is, with the thread whose buffer it has taken. -/
inductive Writing (τ : Type) where
  | dequeued (thread : τ) (buf : Nat)
  | written (buf : Nat)
  | checking

/-- `FWebsocketEndpointLWS`: `wsi` and `established` are the state of the connection, `requested`
is whether libwebsockets was asked to call back. `accepted` records what was put into the queue and
`wire` what was written. -/
structure Endpoint (τ : Type) where
  wsi : Bool := false
  established : Bool := false
  requested : Bool := false
  buffers : Nat → List UInt8 := fun _ => []
  made : Nat := 0
  sendQueue : τ → List Nat := fun _ => []
  sendBufPool : List Nat := []
  sending : τ → Option Sending := fun _ => none
  writing : Option (Writing τ) := none
  accepted : List (τ × List UInt8) := []
  wire : List (τ × List UInt8) := []

variable {τ : Type} [DecidableEq τ]

namespace Endpoint

/-- A call of `SendData` goes on. -/
def setSending (e : Endpoint τ) (thread : τ) (call : Option Sending) : Endpoint τ :=
  { e with sending := Function.update e.sending thread call }

/-- A buffer changes. -/
def setBuffer (e : Endpoint τ) (buf : Nat) (bytes : List UInt8) : Endpoint τ :=
  { e with buffers := Function.update e.buffers buf bytes }

/-- `SendData` begins: a buffer of the pool, or a new one. -/
def sendData (e : Endpoint τ) (thread : τ) (content : List UInt8) (pooled : Option Nat) :
    Option (Endpoint τ) :=
  match e.sending thread, pooled with
  | none, some buf =>
      if buf ∈ e.sendBufPool then
        some ({ e with sendBufPool := e.sendBufPool.erase buf }.setSending thread
          (some ⟨buf, content, .taken⟩))
      else none
  | none, none =>
      some ({ e with made := e.made + 1 }.setSending thread (some ⟨e.made, content, .taken⟩))
  | _, _ => none

/-- The next step of `SendData`. -/
def sendNext (lwsPre : Nat) (e : Endpoint τ) (thread : τ) : Option (Endpoint τ) :=
  (e.sending thread).map fun call =>
    match call.phase with
    | .taken =>
        (e.setBuffer call.buf []).setSending thread (some { call with phase := .cleared })
    | .cleared =>
        (e.setBuffer call.buf (List.replicate lwsPre 0 ++ e.buffers call.buf)).setSending thread
          (some { call with phase := .padded })
    | .padded =>
        (e.setBuffer call.buf (e.buffers call.buf ++ call.content)).setSending thread
          (some { call with phase := .filled })
    | .filled =>
        { e with
          sendQueue := Function.update e.sendQueue thread (e.sendQueue thread ++ [call.buf])
          accepted := e.accepted ++ [(thread, call.content)] }.setSending thread
          (some { call with phase := .queued })
    -- without a connection nobody is asked to call back
    | .queued => { e with requested := e.requested || e.wsi }.setSending thread none

/-- `LWS_CALLBACK_CLIENT_WRITEABLE` begins and takes a buffer, or sees an empty queue. -/
def writeable (e : Endpoint τ) (thread : Option τ) : Option (Endpoint τ) :=
  if e.requested ∧ e.established ∧ e.writing.isNone then
    match thread with
    | none => some { e with requested := false, writing := some .checking }
    | some thread =>
        match e.sendQueue thread with
        | [] => none
        | buf :: queue =>
            some { e with
              requested := false, writing := some (.dequeued thread buf)
              sendQueue := Function.update e.sendQueue thread queue }
  else none

/-- The next step of the callback. `lws_write` leaves the buffer as `scribbled`; `kept` is whether
the pool takes it, and `more` what `size_approx` says. -/
def writeNext (lwsPre : Nat) (e : Endpoint τ) (scribbled : List UInt8) (kept more : Bool) :
    Option (Endpoint τ) :=
  e.writing.map fun writing =>
    match writing with
    | .dequeued thread buf =>
        { e with
          wire := e.wire ++ [(thread, (e.buffers buf).drop lwsPre)]
          writing := some (.written buf) }.setBuffer buf scribbled
    | .written buf =>
        { e with
          sendBufPool := if kept then e.sendBufPool ++ [buf] else e.sendBufPool
          writing := some .checking }
    | .checking => { e with requested := e.requested || more, writing := none }

/-- `lws_client_connect_via_info` in `Tick`. -/
def connect (e : Endpoint τ) : Option (Endpoint τ) :=
  if e.wsi then none else some { e with wsi := true, established := false, requested := false }

/-- `LWS_CALLBACK_CLIENT_ESTABLISHED` -/
def establish (e : Endpoint τ) : Option (Endpoint τ) :=
  if e.wsi ∧ e.writing.isNone then some { e with established := true } else none

/-- `SetError`, for a connection that was closed or could not be made. -/
def setError (e : Endpoint τ) : Option (Endpoint τ) :=
  if e.wsi ∧ e.writing.isNone then
    some { e with wsi := false, established := false, requested := false }
  else none

end Endpoint

/-- An event: a step of a thread that sends, or of the thread that runs `Tick`. -/
inductive Event (τ : Type) where
  | sendData (thread : τ) (content : List UInt8) (pooled : Option Nat)
  | sendNext (thread : τ)
  | writeable (thread : Option τ)
  | writeNext (scribbled : List UInt8) (kept more : Bool)
  | connect
  | establish
  | setError

/-- One event. -/
def endpointStep (lwsPre : Nat) (e : Endpoint τ) : Event τ → Option (Endpoint τ)
  | .sendData thread content pooled => e.sendData thread content pooled
  | .sendNext thread => e.sendNext lwsPre thread
  | .writeable thread => e.writeable thread
  | .writeNext scribbled kept more => e.writeNext lwsPre scribbled kept more
  | .connect => e.connect
  | .establish => e.establish
  | .setError => e.setError

/-! ## What the user sees of it -/

/-- The messages of one thread. -/
def messagesOf (thread : τ) (log : List (τ × List UInt8)) : List (List UInt8) :=
  log.filterMap fun entry => if entry.1 = thread then some entry.2 else none

/-- The message that a buffer carries. -/
def Endpoint.message (lwsPre : Nat) (e : Endpoint τ) (buf : Nat) : List UInt8 :=
  (e.buffers buf).drop lwsPre

/-- The message that the callback has taken of a thread but not written. -/
def Endpoint.inFlight (lwsPre : Nat) (e : Endpoint τ) (thread : τ) : List (List UInt8) :=
  match e.writing with
  | some (.dequeued other buf) => if other = thread then [e.message lwsPre buf] else []
  | _ => []

/-- The messages of a thread that were not written yet. -/
def Endpoint.pending (lwsPre : Nat) (e : Endpoint τ) (thread : τ) : List (List UInt8) :=
  e.inFlight lwsPre thread ++ (e.sendQueue thread).map (e.message lwsPre)

end Utilpp.Websocket
