import Utilpp.Handle
import Utilpp.Message.Packet
import Utilpp.Lib.Transition
import Mathlib.Logic.Function.Basic

/-!
# The message server and its sessions

`MessageServerUV` accepts connections over TCP or a pipe, or takes datagrams, and keeps a
`MessageSessionUV` for each remote end. libuv calls the server and the sessions back: a new
connection, data, the end of a write, of a shutdown and of a close. Every callback runs delegates of
the user, and the user may call `Write` and `Disconnect` of a session from there or from outside.

A session is known by the number of its allocation. A delegate is a frame on the stack until it
returns; what the user does meanwhile are events of their own. libuv calls back only when no
delegate is running. Whatever touches a session that was freed is undefined, and so is what comes
behind a delegate of it. The bytes that are written belong to libuv and are left out.
-/

namespace Utilpp.Message

open Lib

/-- `EMessageConnectionState`, as far as a session has it. -/
inductive EMessageConnectionState where
  | idle
  | connected
  | closing
  deriving DecidableEq

/-- The family of an address. -/
inductive Family where
  | inet
  | inet6
  | other (family : Nat)
  deriving DecidableEq

/-- `sockaddr`: the family and what stands behind it. -/
structure SockAddr where
  family : Family
  data : List UInt8
  deriving DecidableEq

/-- The families that `FSimpleIPAddress` takes. -/
def SockAddr.supported (addr : SockAddr) : Bool :=
  match addr.family with
  | .other _ => false
  | _ => true

/-- `FSimpleIPAddress::operator==` -/
def SockAddr.same (stored addr : SockAddr) : Bool :=
  if addr.family ≠ stored.family then false
  else
    match addr.family with
    | .other _ => false
    | _ => stored.data = addr.data

/-- `MessageSessionUV`, with what libuv keeps for its handle: the writes that it has taken, whether
it reads, and whether a shutdown or a close is under way. -/
structure MessageSession where
  id : UInt32
  remoteAddr : Option SockAddr := none
  state : EMessageConnectionState := .connected
  writeCount : UInt32 := 0
  writeRequests : List UInt32 := []
  queue : List UInt32 := []
  reading : Bool := false
  shutdown : Bool := false
  closing : Bool := false
  deriving DecidableEq

/-- A delegate that runs for a session, with what is left to do when it returns. `onConnect` is
followed by the datagram that made the session, if one did. -/
inductive Frame where
  | onConnect (key : Nat) (datagram : Option (Option (List UInt8)))
  | onRead (key : Nat)
  | onWrite (key : Nat) (handle : UInt32)
  | onDisconnect (key : Nat)
  deriving DecidableEq

/-- The session that a delegate runs for. -/
def Frame.key : Frame → Nat
  | .onConnect key _ => key
  | .onRead key => key
  | .onWrite key _ => key
  | .onDisconnect key => key

/-- A call of a delegate, with the address of the session for which it is. -/
inductive DelegateCall where
  | connected (addr : Option SockAddr)
  | read (addr : Option SockAddr) (bytes : List UInt8)
  | wrote (handle : UInt32) (status : Int)
  | disconnected
  deriving DecidableEq

/-- `MessageServerUV`. `taken` records the writes that libuv took, `calls` the calls of delegates;
`orphans` are the writes that libuv still has for sessions that were freed. -/
structure MessageServer where
  type : EMessageConnectionType
  sessions : Nat → Option MessageSession := fun _ => none
  made : Nat := 0
  idCount : UInt32 := 0
  running : List Frame := []
  orphans : List (Nat × UInt32) := []
  taken : List (Nat × UInt32) := []
  calls : List (Nat × DelegateCall) := []

namespace MessageServer

/-- The session changes. -/
def set (server : MessageServer) (key : Nat) (session : MessageSession) : MessageServer :=
  { server with sessions := Function.update server.sessions key (some session) }

@[simp] theorem set_self (server : MessageServer) (key : Nat) (session : MessageSession) :
    (server.set key session).sessions key = some session := Function.update_self key _ _

theorem set_other (server : MessageServer) {key other : Nat} (h : other ≠ key)
    (session : MessageSession) :
    (server.set key session).sessions other = server.sessions other :=
  Function.update_of_ne h _ _

/-- A delegate is called. -/
def trigger (server : MessageServer) (frame : Frame) (call : DelegateCall) : MessageServer :=
  { server with
    running := frame :: server.running, calls := server.calls ++ [(frame.key, call)] }

/-- `OnSessionClose`, up to the delegate. -/
def onSessionClose (server : MessageServer) (key : Nat) : MessageServer :=
  server.trigger (.onDisconnect key) .disconnected

/-- `MessageSessionUV::Disconnect`; `shutdown` is whether `uv_shutdown` is taken. -/
def disconnect (server : MessageServer) (key : Nat) (shutdown : Bool) : Option MessageServer :=
  (server.sessions key).map fun session =>
    if session.state ≠ .connected then server
    else
      match server.type with
      | .udp => (server.set key { session with state := .closing }).onSessionClose key
      | _ => server.set key { session with state := .closing, reading := false, shutdown }

/-- libuv takes a write. -/
def take (server : MessageServer) (key : Nat) (handle : UInt32) : MessageServer :=
  { server with taken := server.taken ++ [(key, handle)] }

/-- `MessageSessionUV::Write`; `queued` is whether libuv takes it. -/
def write (server : MessageServer) (key : Nat) (queued : Bool) : Option MessageServer :=
  (server.sessions key).map fun session =>
    let (handle, writeCount) := drawID session.writeCount
    -- the number of a write that was not answered yet
    if handle ∈ session.writeRequests then server.set key { session with writeCount }
    else
      let session :=
        { session with writeCount, writeRequests := session.writeRequests ++ [handle] }
      if session.state = .connected ∧ queued then
        (server.set key { session with queue := session.queue ++ [handle] }).take key handle
      else server.set key session

/-- A new session. -/
def emplace (server : MessageServer) (session : MessageSession) : MessageServer :=
  { server.set server.made session with made := server.made + 1, idCount := server.idCount + 1 }

/-- `UVOnConnection`: `status` is whether there is a connection and `accepted` whether `uv_accept`
gets it. A stream that was not accepted cannot be shut down. -/
def uvOnConnection (server : MessageServer) (status accepted : Bool) : MessageServer :=
  if !status then server
  else
    let key := server.made
    if accepted then
      (server.emplace { id := server.idCount, reading := true }).trigger (.onConnect key none)
        (.connected none)
    else server.emplace { id := server.idCount, state := .closing }

/-- `UVOnRead`; without data it is the end or an error. -/
def uvOnRead (server : MessageServer) (key : Nat) (data : Option (List UInt8)) (shutdown : Bool) :
    Option MessageServer :=
  match data with
  | none => server.disconnect key shutdown
  | some bytes =>
      (server.sessions key).map fun session =>
        server.trigger (.onRead key) (.read session.remoteAddr bytes)

/-- `OnWrite` and `OnUDPSend`, up to the delegate: the first write that libuv has is answered. -/
def onWrite (server : MessageServer) (key : Nat) (status : Int) : Option MessageServer :=
  (server.sessions key).bind fun session =>
    match session.queue with
    | [] => none
    | handle :: queue =>
        some ((server.set key { session with queue }).trigger (.onWrite key handle)
          (.wrote handle status))

/-- `UVOnShutdown` -/
def uvOnShutdown (server : MessageServer) (key : Nat) : Option MessageServer :=
  (server.sessions key).map fun session =>
    server.set key { session with shutdown := false, closing := true }

/-- `UVOnClose` -/
def uvOnClose (server : MessageServer) (key : Nat) : Option MessageServer :=
  (server.sessions key).map fun session =>
    if session.state ≠ .closing then server.set key { session with closing := false }
    else (server.set key { session with closing := false, state := .idle }).onSessionClose key

/-- The sessions for an address, in the order of the vector. -/
def findAddr (server : MessageServer) (addr : SockAddr) : Option Nat :=
  (List.range server.made).find? fun key =>
    match server.sessions key with
    | none => false
    | some session => session.remoteAddr.any fun stored => stored.same addr

/-- The part of `UVOnUDPRecv` behind the choice of the session. -/
def receive (server : MessageServer) (key : Nat) (data : Option (List UInt8)) :
    Option MessageServer :=
  server.uvOnRead key data false

/-- `UVOnUDPRecv`. Without an address, when there is nothing to read, a null pointer is read; an
address of another family throws. -/
def uvOnUDPRecv (server : MessageServer) (addr : Option SockAddr) (data : Option (List UInt8)) :
    Option MessageServer :=
  addr.bind fun addr =>
    match server.findAddr addr with
    | some key => server.receive key data
    | none =>
        if addr.supported then
          some ((server.emplace { id := server.idCount, remoteAddr := some addr }).trigger
            (.onConnect server.made (some data)) (.connected (some addr)))
        else none

/-- The session is removed and freed. What libuv has of it is not. -/
def free (server : MessageServer) (key : Nat) (session : MessageSession) : MessageServer :=
  { server with
    sessions := Function.update server.sessions key none
    orphans := server.orphans ++ session.queue.map fun handle => (key, handle) }

/-- The last delegate returns. -/
def returns (server : MessageServer) : Option MessageServer :=
  match server.running with
  | [] => none
  | frame :: running =>
      let server := { server with running }
      match frame with
      | .onConnect _ none => some server
      | .onConnect key (some data) => server.receive key data
      | .onRead key => (server.sessions key).map fun _ => server
      | .onWrite key handle =>
          (server.sessions key).map fun session =>
            server.set key
              { session with
                writeRequests := session.writeRequests.filter fun other => other ≠ handle }
      | .onDisconnect key => (server.sessions key).map fun session => server.free key session

end MessageServer

/-! ## What was recorded of one session -/

/-- The entries for one session. -/
def logOf {α : Type} (key : Nat) (log : List (Nat × α)) : List α :=
  log.filterMap fun entry => if entry.1 = key then some entry.2 else none

theorem logOf_append_self {α : Type} (key : Nat) (log : List (Nat × α)) (x : α) :
    logOf key (log ++ [(key, x)]) = logOf key log ++ [x] := by
  simp [logOf]

theorem logOf_append_other {α : Type} {key other : Nat} (h : key ≠ other) (log : List (Nat × α))
    (x : α) : logOf other (log ++ [(key, x)]) = logOf other log := by
  simp [logOf, h]

/-! ## Events -/

/-- An event: a callback of libuv, a call of the user, or the return of a delegate. -/
inductive ServerEvent where
  | connection (status accepted : Bool)
  | read (key : Nat) (data : Option (List UInt8)) (shutdown : Bool)
  | udpRecv (addr : Option SockAddr) (data : Option (List UInt8))
  | wrote (key : Nat) (status : Int)
  | shutdown (key : Nat)
  | close (key : Nat)
  | write (key : Nat) (queued : Bool)
  | disconnect (key : Nat) (shutdown : Bool)
  | returns
  deriving DecidableEq

/-- One event. -/
def serverStep (server : MessageServer) : ServerEvent → Option MessageServer
  | .connection status accepted => some (server.uvOnConnection status accepted)
  | .read key data shutdown => server.uvOnRead key data shutdown
  | .udpRecv addr data => server.uvOnUDPRecv addr data
  | .wrote key status => server.onWrite key status
  | .shutdown key => server.uvOnShutdown key
  | .close key => server.uvOnClose key
  | .write key queued => server.write key queued
  | .disconnect key shutdown => server.disconnect key shutdown
  | .returns => server.returns

end Utilpp.Message
