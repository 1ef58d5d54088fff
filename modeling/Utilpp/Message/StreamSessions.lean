import Utilpp.Message.Server

/-!
# Sessions over a stream

Over TCP and over a pipe a session is freed only when libuv has closed its handle, and libuv has
then answered all its writes. `KeyMove` says what can happen to one session; every event of the
server is such a move for one session and leaves the others alone (`step_keyMove`). From it follow
the order of the calls that a user sees of a session, and that every write which libuv takes is
answered once, in order, before the session is gone.
-/

namespace Utilpp.Message

open Lib

/-! ## One session -/

/-- The writes that were answered. -/
def answered (calls : List DelegateCall) : List UInt32 :=
  calls.filterMap fun call =>
    match call with
    | .wrote handle _ => some handle
    | _ => none

/-- What concerns one session. -/
structure KeyState where
  session : Option MessageSession
  made : Prop
  disconnecting : Prop
  calls : List DelegateCall
  taken : List UInt32

/-- What concerns the session `key` of a server. -/
def MessageServer.at (server : MessageServer) (key : Nat) : KeyState where
  session := server.sessions key
  made := key < server.made
  disconnecting := .onDisconnect key ∈ server.running
  calls := logOf key server.calls
  taken := logOf key server.taken

/-- What can happen to a session over a stream. -/
inductive KeyMove (state : KeyState) : KeyState → Prop where
  | accepted (id : UInt32) (h : state.session = none) (hnew : ¬ state.made) :
      KeyMove state
        { state with
          session := some { id, reading := true }, made := True
          calls := state.calls ++ [.connected none] }
  | refused (id : UInt32) (h : state.session = none) (hnew : ¬ state.made) :
      KeyMove state { state with session := some { id, state := .closing }, made := True }
  | disconnect (session : MessageSession) (shutdown : Bool) (h : state.session = some session)
      (hstate : session.state = .connected) :
      KeyMove state
        { state with
          session := some { session with state := .closing, reading := false, shutdown } }
  | read (session : MessageSession) (bytes : List UInt8) (h : state.session = some session)
      (hreading : session.reading = true) :
      KeyMove state { state with calls := state.calls ++ [.read session.remoteAddr bytes] }
  | wrote (session : MessageSession) (handle : UInt32) (queue : List UInt32) (status : Int)
      (h : state.session = some session) (hqueue : session.queue = handle :: queue) :
      KeyMove state
        { state with
          session := some { session with queue }, calls := state.calls ++ [.wrote handle status] }
  | shutdown (session : MessageSession) (h : state.session = some session)
      (hshutdown : session.shutdown = true) :
      KeyMove state
        { state with session := some { session with shutdown := false, closing := true } }
  | close (session : MessageSession) (h : state.session = some session)
      (hclosing : session.closing = true) (hshutdown : session.shutdown = false)
      (hqueue : session.queue = []) (hstate : session.state = .closing) :
      KeyMove state
        { state with
          session := some { session with closing := false, state := .idle }
          disconnecting := True, calls := state.calls ++ [.disconnected] }
  | write (session : MessageSession) (writeCount : UInt32) (writeRequests : List UInt32)
      (h : state.session = some session) :
      KeyMove state
        { state with session := some { session with writeCount, writeRequests } }
  | queued (session : MessageSession) (writeCount handle : UInt32) (writeRequests : List UInt32)
      (h : state.session = some session) (hstate : session.state = .connected) :
      KeyMove state
        { state with
          session :=
            some { session with
              writeCount, writeRequests, queue := session.queue ++ [handle] }
          taken := state.taken ++ [handle] }
  | freed (h : state.disconnecting) :
      KeyMove state { state with session := none, disconnecting := False }

/-! ### The calls of a session -/

/-- How far a session is for the user. -/
inductive Phase where
  | fresh
  | opened
  | closed
  | broken
  deriving DecidableEq

/-- A session is connected, read and written, and disconnected, each in its time. -/
def Phase.next : Phase → DelegateCall → Phase
  | .fresh, .connected _ => .opened
  | .opened, .read _ _ => .opened
  | .opened, .wrote _ _ => .opened
  | .opened, .disconnected => .closed
  | _, _ => .broken

/-- How far the calls lead. -/
def phase (calls : List DelegateCall) : Phase := calls.foldl Phase.next .fresh

theorem phase_append (calls : List DelegateCall) (call : DelegateCall) :
    phase (calls ++ [call]) = (phase calls).next call := by
  rw [phase, List.foldl_append]
  rfl

theorem answered_append (calls : List DelegateCall) (call : DelegateCall) :
    answered (calls ++ [call]) = answered calls ++ answered [call] :=
  List.filterMap_append

/-- What holds of a session while it is there. -/
inductive Alive (state : KeyState) (session : MessageSession) : Prop where
  | connected (hstate : session.state = .connected) (hphase : phase state.calls = .opened)
      (hshutdown : session.shutdown = false) (hclosing : session.closing = false)
      (hdisconnecting : ¬ state.disconnecting)
  | closing (hstate : session.state = .closing) (hreading : session.reading = false)
      (hphase : phase state.calls = .opened) (hdisconnecting : ¬ state.disconnecting)
  | refused (hstate : session.state = .closing) (hreading : session.reading = false)
      (hphase : phase state.calls = .fresh) (hshutdown : session.shutdown = false)
      (hclosing : session.closing = false) (hqueue : session.queue = [])
      (hdisconnecting : ¬ state.disconnecting)
  | idle (hstate : session.state = .idle) (hreading : session.reading = false)
      (hphase : phase state.calls = .closed) (hshutdown : session.shutdown = false)
      (hclosing : session.closing = false) (hqueue : session.queue = [])

/-- What holds of a session at any time: it is not there yet, it is there, or it is gone. -/
inductive KeyOk (state : KeyState) : Prop where
  | fresh (hsession : state.session = none) (hmade : ¬ state.made)
      (hdisconnecting : ¬ state.disconnecting) (hphase : phase state.calls = .fresh)
      (htaken : state.taken = answered state.calls)
  | alive (session : MessageSession) (hsession : state.session = some session)
      (hmade : state.made) (halive : Alive state session)
      (htaken : state.taken = answered state.calls ++ session.queue)
  | gone (hsession : state.session = none) (hmade : state.made)
      (hdisconnecting : ¬ state.disconnecting) (hphase : phase state.calls = .closed)
      (htaken : state.taken = answered state.calls)

theorem KeyOk.new {state : KeyState} (h : KeyOk state) (hnew : ¬ state.made) :
    ¬ state.disconnecting ∧ phase state.calls = .fresh ∧
      state.taken = answered state.calls := by
  cases h with
  | fresh _ _ hdisconnecting hphase htaken => exact ⟨hdisconnecting, hphase, htaken⟩
  | alive session _ hmade => exact absurd hmade hnew
  | gone _ hmade => exact absurd hmade hnew

theorem KeyOk.there {state : KeyState} (h : KeyOk state) {session : MessageSession}
    (hsession : state.session = some session) :
    state.made ∧ Alive state session ∧
      state.taken = answered state.calls ++ session.queue := by
  cases h with
  | fresh hnone => cases hsession.symm.trans hnone
  | alive other hother hmade halive htaken =>
      cases hsession.symm.trans hother
      exact ⟨hmade, halive, htaken⟩
  | gone hnone => cases hsession.symm.trans hnone

theorem KeyMove.keyOk {state state' : KeyState} (hmove : KeyMove state state')
    (h : KeyOk state) : KeyOk state' := by
  cases hmove with
  | accepted id hnone hnew =>
      obtain ⟨hidle, hphase, htaken⟩ := h.new hnew
      refine .alive _ rfl trivial (.connected rfl ?_ rfl rfl hidle) ?_
      · show phase (state.calls ++ [.connected none]) = .opened
        rw [phase_append, hphase]
        rfl
      · show state.taken = answered (state.calls ++ [.connected none]) ++ []
        rw [answered_append, htaken, List.append_nil]
        exact (List.append_nil _).symm
  | refused id hnone hnew =>
      obtain ⟨hidle, hphase, htaken⟩ := h.new hnew
      refine .alive _ rfl trivial (.refused rfl rfl hphase rfl rfl rfl hidle) ?_
      exact htaken.trans (List.append_nil _).symm
  | disconnect session shutdown hsession hstate =>
      obtain ⟨hmade, halive, htaken⟩ := h.there hsession
      refine .alive _ rfl hmade ?_ htaken
      cases halive with
      | connected _ hphase _ _ hidle => exact .closing rfl rfl hphase hidle
      | closing hother => cases hother.symm.trans hstate
      | refused hother => cases hother.symm.trans hstate
      | idle hother => cases hother.symm.trans hstate
  | read session bytes hsession hreading =>
      obtain ⟨hmade, halive, htaken⟩ := h.there hsession
      refine .alive session hsession hmade ?_ ?_
      · cases halive with
        | connected hstate hphase hshutdown hclosing hidle =>
            refine .connected hstate ?_ hshutdown hclosing hidle
            show phase (state.calls ++ [.read session.remoteAddr bytes]) = .opened
            rw [phase_append, hphase]
            rfl
        | closing _ hnot => cases hnot.symm.trans hreading
        | refused _ hnot => cases hnot.symm.trans hreading
        | idle _ hnot => cases hnot.symm.trans hreading
      · show state.taken =
          answered (state.calls ++ [.read session.remoteAddr bytes]) ++ session.queue
        rw [answered_append, htaken]
        exact congrArg (· ++ session.queue) (List.append_nil _).symm
  | wrote session handle queue status hsession hqueue =>
      obtain ⟨hmade, halive, htaken⟩ := h.there hsession
      have hopened : phase state.calls = .opened →
          phase (state.calls ++ [.wrote handle status]) = .opened := by
        intro hphase
        rw [phase_append, hphase]
        rfl
      refine .alive _ rfl hmade ?_ ?_
      · cases halive with
        | connected hstate hphase hshutdown hclosing hidle =>
            exact .connected hstate (hopened hphase) hshutdown hclosing hidle
        | closing hstate hreading hphase hidle =>
            exact .closing hstate hreading (hopened hphase) hidle
        | refused _ _ _ _ _ hempty => cases hempty.symm.trans hqueue
        | idle _ _ _ _ _ hempty => cases hempty.symm.trans hqueue
      · show state.taken = answered (state.calls ++ [.wrote handle status]) ++ queue
        rw [answered_append, htaken, hqueue, List.append_assoc]
        rfl
  | shutdown session hsession hshutdown =>
      obtain ⟨hmade, halive, htaken⟩ := h.there hsession
      refine .alive _ rfl hmade ?_ htaken
      cases halive with
      | connected _ _ hnot => cases hnot.symm.trans hshutdown
      | closing hstate hreading hphase hidle => exact .closing hstate hreading hphase hidle
      | refused _ _ _ hnot => cases hnot.symm.trans hshutdown
      | idle _ _ _ hnot => cases hnot.symm.trans hshutdown
  | close session hsession hclosing hshutdown hqueue hstate =>
      obtain ⟨hmade, halive, htaken⟩ := h.there hsession
      refine .alive _ rfl hmade ?_ ?_
      · cases halive with
        | connected hother => cases hother.symm.trans hstate
        | closing _ hreading hphase hidle =>
            refine .idle rfl hreading ?_ hshutdown rfl hqueue
            show phase (state.calls ++ [.disconnected]) = .closed
            rw [phase_append, hphase]
            rfl
        | refused _ _ _ _ hnot => cases hnot.symm.trans hclosing
        | idle hother => cases hother.symm.trans hstate
      · show state.taken = answered (state.calls ++ [.disconnected]) ++ session.queue
        rw [answered_append, htaken]
        exact congrArg (· ++ session.queue) (List.append_nil _).symm
  | write session writeCount writeRequests hsession =>
      obtain ⟨hmade, halive, htaken⟩ := h.there hsession
      refine .alive _ rfl hmade ?_ htaken
      cases halive with
      | connected hstate hphase hshutdown hclosing hidle =>
          exact .connected hstate hphase hshutdown hclosing hidle
      | closing hstate hreading hphase hidle => exact .closing hstate hreading hphase hidle
      | refused hstate hreading hphase hshutdown hclosing hqueue hidle =>
          exact .refused hstate hreading hphase hshutdown hclosing hqueue hidle
      | idle hstate hreading hphase hshutdown hclosing hqueue =>
          exact .idle hstate hreading hphase hshutdown hclosing hqueue
  | queued session writeCount handle writeRequests hsession hstate =>
      obtain ⟨hmade, halive, htaken⟩ := h.there hsession
      refine .alive _ rfl hmade ?_ ?_
      · cases halive with
        | connected _ hphase hshutdown hclosing hidle =>
            exact .connected hstate hphase hshutdown hclosing hidle
        | closing hother => cases hother.symm.trans hstate
        | refused hother => cases hother.symm.trans hstate
        | idle hother => cases hother.symm.trans hstate
      · show state.taken ++ [handle] = answered state.calls ++ (session.queue ++ [handle])
        rw [htaken, List.append_assoc]
  | freed hdisconnecting =>
      cases h with
      | fresh _ _ hidle => exact absurd hdisconnecting hidle
      | alive session hsession hmade halive htaken =>
          cases halive with
          | connected _ _ _ _ hidle => exact absurd hdisconnecting hidle
          | closing _ _ _ hidle => exact absurd hdisconnecting hidle
          | refused _ _ _ _ _ _ hidle => exact absurd hdisconnecting hidle
          | idle _ _ hphase _ _ hqueue =>
              refine .gone rfl hmade not_false hphase ?_
              rw [hqueue, List.append_nil] at htaken
              exact htaken
      | gone _ _ hidle => exact absurd hdisconnecting hidle

/-! ## The server -/

namespace MessageServer

variable (server : MessageServer)

theorem at_set_self (key : Nat) (session : MessageSession) :
    (server.set key session).at key = { server.at key with session := some session } := by
  rw [MessageServer.at, set]
  exact congrArg (KeyState.mk · _ _ _ _) (Function.update_self key _ _)

theorem at_set_other {key other : Nat} (h : other ≠ key) (session : MessageSession) :
    (server.set key session).at other = server.at other := by
  rw [MessageServer.at, set]
  exact congrArg (KeyState.mk · _ _ _ _) (Function.update_of_ne h _ _)

theorem at_take_self (key : Nat) (handle : UInt32) :
    (server.take key handle).at key =
      { server.at key with taken := (server.at key).taken ++ [handle] } := by
  rw [MessageServer.at, take]
  dsimp only
  rw [logOf_append_self]
  rfl

theorem at_take_other {key other : Nat} (h : key ≠ other) (handle : UInt32) :
    (server.take key handle).at other = server.at other := by
  rw [MessageServer.at, take]
  dsimp only
  rw [logOf_append_other h]
  rfl

theorem at_trigger_self (key : Nat) (frame : Frame) (hkey : frame.key = key)
    (call : DelegateCall) (h : frame ≠ .onDisconnect key) :
    (server.trigger frame call).at key =
      { server.at key with calls := (server.at key).calls ++ [call] } := by
  subst hkey
  have hmem : (.onDisconnect frame.key ∈ frame :: server.running) =
      (.onDisconnect frame.key ∈ server.running) :=
    propext (List.mem_cons.trans (or_iff_right h.symm))
  rw [MessageServer.at, trigger]
  dsimp only
  rw [hmem, logOf_append_self]
  rfl

theorem at_onSessionClose (key : Nat) :
    (server.onSessionClose key).at key =
      { server.at key with
        disconnecting := True, calls := (server.at key).calls ++ [.disconnected] } := by
  have hmem : (.onDisconnect key ∈ Frame.onDisconnect key :: server.running) = True :=
    eq_true List.mem_cons_self
  rw [MessageServer.at, onSessionClose, trigger]
  dsimp only [Frame.key]
  rw [hmem, logOf_append_self]
  rfl

theorem at_trigger_other (frame : Frame) (call : DelegateCall) {other : Nat}
    (h : frame.key ≠ other) : (server.trigger frame call).at other = server.at other := by
  have hmem : (.onDisconnect other ∈ frame :: server.running) =
      (.onDisconnect other ∈ server.running) :=
    propext (List.mem_cons.trans (or_iff_right fun heq => h (by rw [← heq]; rfl)))
  rw [MessageServer.at, trigger]
  dsimp only
  rw [hmem, logOf_append_other h]
  rfl

theorem at_emplace_self (session : MessageSession) :
    (server.emplace session).at server.made =
      { server.at server.made with session := some session, made := True } := by
  have hmade : (server.made < server.made + 1) = True := eq_true (Nat.lt_succ_self _)
  rw [MessageServer.at, emplace, set]
  dsimp only
  rw [hmade, Function.update_self]
  rfl

theorem at_emplace_other {other : Nat} (h : other ≠ server.made) (session : MessageSession) :
    (server.emplace session).at other = server.at other := by
  have hmade : (other < server.made + 1) = (other < server.made) := propext (by omega)
  rw [MessageServer.at, emplace, set]
  dsimp only
  rw [hmade, Function.update_of_ne h]
  rfl

end MessageServer

/-- What holds of a server over a stream between two events. -/
structure StreamServer (server : MessageServer) : Prop where
  type : server.type ≠ .udp
  keys : ∀ key, KeyOk (server.at key)
  orphans : server.orphans = []
  running : server.running = [] ∨ ∃ frame, server.running = [frame] ∧
    (∃ session, server.sessions frame.key = some session) ∧
    ∀ key data, frame ≠ .onConnect key (some data)

/-- What libuv does for streams, when no delegate is running, and calls for sessions that are
there. -/
def StreamPossible (server : MessageServer) : ServerEvent → Prop
  | .connection _ _ => server.running = []
  | .read key _ _ =>
      server.running = [] ∧ ∃ session ∈ server.sessions key, session.reading = true
  | .udpRecv _ _ => False
  | .wrote key _ => server.running = [] ∧ ∃ session ∈ server.sessions key, session.queue ≠ []
  | .shutdown key =>
      server.running = [] ∧ ∃ session ∈ server.sessions key, session.shutdown = true
  | .close key =>
      server.running = [] ∧ ∃ session ∈ server.sessions key,
        session.closing = true ∧ session.shutdown = false ∧ session.queue = []
  | .write key _ => (server.sessions key).isSome
  | .disconnect key _ => (server.sessions key).isSome
  | .returns => server.running ≠ []

instance (server : MessageServer) : (event : ServerEvent) → Decidable (StreamPossible server event)
  | .connection _ _ => inferInstanceAs (Decidable (_ = _))
  | .read _ _ _ => inferInstanceAs (Decidable (_ ∧ _))
  | .udpRecv _ _ => inferInstanceAs (Decidable False)
  | .wrote _ _ => inferInstanceAs (Decidable (_ ∧ _))
  | .shutdown _ => inferInstanceAs (Decidable (_ ∧ _))
  | .close _ => inferInstanceAs (Decidable (_ ∧ _))
  | .write _ _ => inferInstanceAs (Decidable (_ = true))
  | .disconnect _ _ => inferInstanceAs (Decidable (_ = true))
  | .returns => inferInstanceAs (Decidable (¬ _))

namespace StreamServer

variable {server : MessageServer}

theorem not_made (h : StreamServer server) : server.sessions server.made = none := by
  cases h.keys server.made with
  | fresh hsession => exact hsession
  | alive session _ hmade => exact absurd hmade (Nat.lt_irrefl _)
  | gone hsession => exact hsession

/-- A move of one session that leaves the others alone. -/
theorem move (h : StreamServer server) (key : Nat) {server' : MessageServer}
    (htype : server'.type = server.type)
    (hself : KeyMove (server.at key) (server'.at key))
    (hother : ∀ other, other ≠ key → server'.at other = server.at other)
    (horphans : server'.orphans = [])
    (hrunning : server'.running = [] ∨ ∃ frame, server'.running = [frame] ∧
      (∃ session, server'.sessions frame.key = some session) ∧
      ∀ key data, frame ≠ .onConnect key (some data)) : StreamServer server' where
  type := htype ▸ h.type
  keys other := by
    by_cases heq : other = key
    · subst heq
      exact hself.keyOk (h.keys other)
    · rw [hother other heq]
      exact h.keys other
  orphans := horphans
  running := hrunning

/-- What holds of a running delegate holds when a session changes. -/
theorem running_set (h : StreamServer server) (key : Nat) (session : MessageSession) :
    server.running = [] ∨ ∃ frame, server.running = [frame] ∧
      (∃ session', (server.set key session).sessions frame.key = some session') ∧
      ∀ key data, frame ≠ .onConnect key (some data) := by
  rcases h.running with hnone | ⟨frame, hrunning, ⟨old, hold⟩, hplain⟩
  · exact .inl hnone
  · refine .inr ⟨frame, hrunning, ?_, hplain⟩
    by_cases heq : frame.key = key
    · exact ⟨session, heq ▸ server.set_self key session⟩
    · exact ⟨old, (server.set_other heq session).trans hold⟩

/-- A session that changes while the same delegate is running or none. -/
theorem set (h : StreamServer server) {key : Nat} {session : MessageSession}
    (hself : KeyMove (server.at key) { server.at key with session := some session }) :
    StreamServer (server.set key session) := by
  refine h.move key rfl ?_ (fun other hother => server.at_set_other hother session) h.orphans
    (h.running_set key session)
  rw [server.at_set_self]
  exact hself

theorem disconnect (h : StreamServer server) {key : Nat} {session : MessageSession}
    (hsession : server.sessions key = some session) (shutdown : Bool) :
    ∃ server', server.disconnect key shutdown = some server' ∧ StreamServer server' := by
  rw [MessageServer.disconnect, hsession, Option.map_some]
  refine ⟨_, rfl, ?_⟩
  by_cases hstate : session.state = .connected
  · rw [if_neg (not_not.mpr hstate)]
    have hset := h.set (.disconnect session shutdown hsession hstate)
    split
    · next htype => exact absurd htype h.type
    · exact hset
  · rw [if_pos hstate]
    exact h

theorem write (h : StreamServer server) {key : Nat} {session : MessageSession}
    (hsession : server.sessions key = some session) (queued : Bool) :
    ∃ server', server.write key queued = some server' ∧ StreamServer server' := by
  rw [MessageServer.write, hsession, Option.map_some]
  refine ⟨_, rfl, ?_⟩
  dsimp only
  split
  · exact h.set (.write session _ session.writeRequests hsession)
  split
  · next hboth =>
    refine h.move key rfl ?_ (fun other hother => ?_) h.orphans (h.running_set key _)
    · rw [MessageServer.at_take_self, MessageServer.at_set_self]
      exact .queued session _ _ _ hsession hboth.1
    · rw [MessageServer.at_take_other _ hother.symm, MessageServer.at_set_other _ hother]
  · exact h.set (.write session _ _ hsession)

/-- A delegate that is called for a session when none is running. -/
theorem trigger (h : StreamServer server) (hrunning : server.running = []) {frame : Frame}
    {call : DelegateCall} {session : MessageSession}
    (hsession : server.sessions frame.key = some session)
    (hplain : ∀ key data, frame ≠ .onConnect key (some data))
    (hself : KeyMove (server.at frame.key) ((server.trigger frame call).at frame.key)) :
    StreamServer (server.trigger frame call) := by
  refine h.move frame.key rfl hself (fun other hother => ?_) h.orphans
    (.inr ⟨frame, ?_, ⟨session, ?_⟩, ?_⟩)
  · exact server.at_trigger_other frame call hother.symm
  · show frame :: server.running = [frame]
    rw [hrunning]
  · exact hsession
  · exact hplain

theorem connection (h : StreamServer server) (hrunning : server.running = [])
    (status accepted : Bool) : StreamServer (server.uvOnConnection status accepted) := by
  have hnew : ¬ (server.at server.made).made := Nat.lt_irrefl _
  rw [MessageServer.uvOnConnection]
  split
  · exact h
  dsimp only
  split
  · refine h.move server.made rfl ?_ (fun other hother => ?_) h.orphans
      (.inr ⟨.onConnect server.made none, ?_, ⟨_, Function.update_self _ _ _⟩, nofun⟩)
    · rw [MessageServer.at_trigger_self _ server.made (.onConnect server.made none) rfl _ nofun,
        server.at_emplace_self]
      exact .accepted server.idCount h.not_made hnew
    · rw [MessageServer.at_trigger_other _ (.onConnect server.made none) _ hother.symm,
        server.at_emplace_other hother]
    · show Frame.onConnect server.made none :: server.running = [.onConnect server.made none]
      rw [hrunning]
  · refine h.move server.made rfl ?_ (fun other hother => ?_) h.orphans (.inl hrunning)
    · rw [server.at_emplace_self]
      exact .refused server.idCount h.not_made hnew
    · exact server.at_emplace_other hother _

theorem read (h : StreamServer server) {key : Nat} {session : MessageSession}
    (hrunning : server.running = []) (hsession : server.sessions key = some session)
    (hreading : session.reading = true) (data : Option (List UInt8)) (shutdown : Bool) :
    ∃ server', server.uvOnRead key data shutdown = some server' ∧ StreamServer server' := by
  cases data with
  | none => exact h.disconnect hsession shutdown
  | some bytes =>
      rw [MessageServer.uvOnRead, hsession]
      refine ⟨_, rfl, h.trigger hrunning hsession nofun ?_⟩
      show KeyMove (server.at key)
        ((server.trigger (.onRead key) (.read session.remoteAddr bytes)).at key)
      rw [server.at_trigger_self key (.onRead key) rfl _ nofun]
      exact .read session bytes hsession hreading

theorem wrote (h : StreamServer server) {key : Nat} {session : MessageSession}
    (hrunning : server.running = []) (hsession : server.sessions key = some session)
    (hqueue : session.queue ≠ []) (status : Int) :
    ∃ server', server.onWrite key status = some server' ∧ StreamServer server' := by
  obtain ⟨handle, queue, hcons⟩ := List.exists_cons_of_ne_nil hqueue
  rw [MessageServer.onWrite, hsession, Option.bind_some, hcons]
  refine ⟨_, rfl, h.move key rfl ?_ (fun other hother => ?_) h.orphans
    (.inr ⟨.onWrite key handle, ?_, ⟨_, Function.update_self _ _ _⟩, nofun⟩)⟩
  · rw [MessageServer.at_trigger_self _ key (.onWrite key handle) rfl _ nofun, server.at_set_self]
    exact .wrote session handle queue status hsession hcons
  · rw [MessageServer.at_trigger_other _ (.onWrite key handle) _ hother.symm,
      server.at_set_other hother]
  · show Frame.onWrite key handle :: server.running = [.onWrite key handle]
    rw [hrunning]

theorem shutdown (h : StreamServer server) {key : Nat} {session : MessageSession}
    (hsession : server.sessions key = some session) (hshutdown : session.shutdown = true) :
    ∃ server', server.uvOnShutdown key = some server' ∧ StreamServer server' := by
  rw [MessageServer.uvOnShutdown, hsession]
  exact ⟨_, rfl, h.set (.shutdown session hsession hshutdown)⟩

theorem close (h : StreamServer server) {key : Nat} {session : MessageSession}
    (hrunning : server.running = []) (hsession : server.sessions key = some session)
    (hclosing : session.closing = true) (hshutdown : session.shutdown = false)
    (hqueue : session.queue = []) :
    ∃ server', server.uvOnClose key = some server' ∧ StreamServer server' := by
  have hstate : session.state = .closing := by
    obtain ⟨-, halive, -⟩ := (h.keys key).there hsession
    cases halive with
    | connected _ _ _ hnot => cases hnot.symm.trans hclosing
    | closing hstate => exact hstate
    | refused hstate => exact hstate
    | idle _ _ _ _ hnot => cases hnot.symm.trans hclosing
  rw [MessageServer.uvOnClose, hsession, Option.map_some, if_neg (not_not.mpr hstate)]
  refine ⟨_, rfl, h.move key rfl ?_ (fun other hother => ?_) h.orphans
    (.inr ⟨.onDisconnect key, ?_, ⟨_, Function.update_self _ _ _⟩, nofun⟩)⟩
  · rw [MessageServer.at_onSessionClose, server.at_set_self]
    exact .close session hsession hclosing hshutdown hqueue hstate
  · rw [MessageServer.onSessionClose,
      MessageServer.at_trigger_other _ (.onDisconnect key) _ hother.symm,
      server.at_set_other hother]
  · show Frame.onDisconnect key :: server.running = [.onDisconnect key]
    rw [hrunning]

/-- The stack is empty when a delegate returns that closes no session. -/
theorem pop (h : StreamServer server) {frame : Frame} (hframe : server.running = [frame])
    (hplain : ∀ key, frame ≠ .onDisconnect key) : StreamServer { server with running := [] } where
  type := h.type
  keys key := by
    have hmem : (.onDisconnect key ∈ ([] : List Frame)) = (.onDisconnect key ∈ server.running) := by
      rw [hframe, List.mem_singleton]
      exact propext ⟨nofun, fun heq => absurd heq.symm (hplain key)⟩
    have hat : { server with running := [] }.at key = server.at key := by
      rw [MessageServer.at]
      dsimp only
      rw [hmem]
      rfl
    rw [hat]
    exact h.keys key
  orphans := h.orphans
  running := .inl rfl

theorem free (h : StreamServer server) {key : Nat} {session : MessageSession}
    (hframe : server.running = [.onDisconnect key])
    (hsession : server.sessions key = some session) :
    StreamServer ({ server with running := [] }.free key session) := by
  have hdisconnecting : (server.at key).disconnecting := by
    show Frame.onDisconnect key ∈ server.running
    rw [hframe]
    exact List.mem_singleton_self _
  have hqueue : session.queue = [] := by
    obtain ⟨-, halive, -⟩ := (h.keys key).there hsession
    cases halive with
    | connected _ _ _ _ hidle => exact absurd hdisconnecting hidle
    | closing _ _ _ hidle => exact absurd hdisconnecting hidle
    | refused _ _ _ _ _ _ hidle => exact absurd hdisconnecting hidle
    | idle _ _ _ _ _ hqueue => exact hqueue
  have hempty : ∀ other, (.onDisconnect other ∈ ([] : List Frame)) = False :=
    fun other => eq_false List.not_mem_nil
  refine h.move key rfl ?_ (fun other hother => ?_) ?_ (.inl rfl)
  · have hat : ({ server with running := [] }.free key session).at key =
        { server.at key with session := none, disconnecting := False } := by
      rw [MessageServer.at, MessageServer.free]
      dsimp only
      rw [hempty, Function.update_self]
      rfl
    rw [hat]
    exact .freed hdisconnecting
  · have hmem : (.onDisconnect other ∈ server.running) = False := by
      rw [hframe]
      refine eq_false fun hmem => hother ?_
      cases List.mem_singleton.mp hmem
      rfl
    rw [MessageServer.at, MessageServer.at, MessageServer.free]
    dsimp only
    rw [hempty, hmem, Function.update_of_ne hother]
  · show server.orphans ++ session.queue.map _ = []
    rw [h.orphans, hqueue]
    rfl

theorem returns (h : StreamServer server) (hrunning : server.running ≠ []) :
    ∃ server', server.returns = some server' ∧ StreamServer server' := by
  obtain hnone | ⟨frame, hframe, ⟨session, hsession⟩, hplain⟩ := h.running
  · exact absurd hnone hrunning
  rw [MessageServer.returns, hframe]
  cases frame with
  | onConnect key datagram =>
      cases datagram with
      | none => exact ⟨_, rfl, h.pop hframe nofun⟩
      | some data => exact absurd rfl (hplain key data)
  | onRead key =>
      have hthere : server.sessions key = some session := hsession
      dsimp only
      rw [hthere]
      exact ⟨_, rfl, h.pop hframe nofun⟩
  | onWrite key handle =>
      have hthere : server.sessions key = some session := hsession
      dsimp only
      rw [hthere]
      exact ⟨_, rfl, (h.pop hframe nofun).set (.write session _ _ hsession)⟩
  | onDisconnect key =>
      have hthere : server.sessions key = some session := hsession
      dsimp only
      rw [hthere]
      exact ⟨_, rfl, h.free hframe hthere⟩

theorem step (h : StreamServer server) {event : ServerEvent}
    (hpossible : StreamPossible server event) :
    ∃ server', serverStep server event = some server' ∧ StreamServer server' := by
  cases event with
  | connection status accepted => exact ⟨_, rfl, h.connection hpossible status accepted⟩
  | read key data shutdown =>
      obtain ⟨hrunning, session, hsession, hreading⟩ := hpossible
      exact h.read hrunning hsession hreading data shutdown
  | udpRecv addr data => exact hpossible.elim
  | wrote key status =>
      obtain ⟨hrunning, session, hsession, hqueue⟩ := hpossible
      exact h.wrote hrunning hsession hqueue status
  | shutdown key =>
      obtain ⟨-, session, hsession, hshutdown⟩ := hpossible
      exact h.shutdown hsession hshutdown
  | close key =>
      obtain ⟨hrunning, session, hsession, hclosing, hshutdown, hqueue⟩ := hpossible
      exact h.close hrunning hsession hclosing hshutdown hqueue
  | write key queued =>
      obtain ⟨session, hsession⟩ := Option.isSome_iff_exists.mp hpossible
      exact h.write hsession queued
  | disconnect key shutdown =>
      obtain ⟨session, hsession⟩ := Option.isSome_iff_exists.mp hpossible
      exact h.disconnect hsession shutdown
  | returns => exact h.returns hpossible

end StreamServer

/-! ## Runs -/

/-- A server that was made for a stream. -/
def streamServer (ipc : Bool) : MessageServer := { type := if ipc then .ipc else .tcp }

theorem streamServer_ok (ipc : Bool) : StreamServer (streamServer ipc) where
  type := by cases ipc <;> exact nofun
  keys _ := .fresh rfl (Nat.not_lt_zero _) List.not_mem_nil rfl rfl
  orphans := rfl
  running := .inl rfl

theorem stream_run (ipc : Bool) {events : List ServerEvent}
    (hpossible : Guarded serverStep StreamPossible (streamServer ipc) events) :
    ∃ server, exec serverStep (streamServer ipc) events = some server ∧ StreamServer server :=
  exec_defined (fun _ _ h hevent => h.step hevent) (streamServer_ok ipc) hpossible

theorem Alive.seen {state : KeyState} {session : MessageSession} (h : Alive state session) :
    phase state.calls ≠ .broken ∧ (phase state.calls = .closed → session.state = .idle) := by
  cases h with
  | connected _ hphase =>
      rw [hphase]
      exact ⟨nofun, nofun⟩
  | closing _ _ hphase =>
      rw [hphase]
      exact ⟨nofun, nofun⟩
  | refused _ _ hphase =>
      rw [hphase]
      exact ⟨nofun, nofun⟩
  | idle hstate _ hphase =>
      rw [hphase]
      exact ⟨nofun, fun _ => hstate⟩

theorem KeyOk.seen {state : KeyState} (h : KeyOk state) :
    phase state.calls ≠ .broken ∧
      (state.session = none → state.made → phase state.calls = .closed) ∧
      (phase state.calls = .closed →
        ∀ session, state.session = some session → session.state = .idle) := by
  cases h with
  | fresh _ hmade _ hphase =>
      rw [hphase]
      exact ⟨nofun, fun _ hnow => absurd hnow hmade, nofun⟩
  | alive session hsession _ halive =>
      obtain ⟨hbroken, hclosed⟩ := halive.seen
      refine ⟨hbroken, fun hnone => ?_, fun hphase other hother => ?_⟩
      · cases hsession.symm.trans hnone
      · cases hsession.symm.trans hother
        exact hclosed hphase
  | gone hsession _ _ hphase =>
      rw [hphase]
      refine ⟨nofun, fun _ _ => rfl, fun _ other hother => ?_⟩
      cases hsession.symm.trans hother

/-- A pipe: a connection, a write that is answered, the end of the other side, and the close. -/
def streamEvents : List ServerEvent :=
  [.connection true true, .returns, .write 0 true, .wrote 0 0, .returns, .read 0 none true,
    .shutdown 0, .close 0, .returns]

theorem streamEvents_possible :
    Guarded serverStep StreamPossible (streamServer true) streamEvents := by decide

/-- Every write that libuv takes over a stream is answered once and in order, and no other is; when
a session is gone, none is left. -/
theorem stream_writes_answered (ipc : Bool) {events : List ServerEvent}
    (hpossible : Guarded serverStep StreamPossible (streamServer ipc) events) :
    ∃ server, exec serverStep (streamServer ipc) events = some server ∧ ∀ key,
      answered (logOf key server.calls) <+: logOf key server.taken ∧
      (server.sessions key = none →
        answered (logOf key server.calls) = logOf key server.taken) := by
  obtain ⟨server, hrun, h⟩ := stream_run ipc hpossible
  refine ⟨server, hrun, fun key => ?_⟩
  cases h.keys key with
  | fresh _ _ _ _ htaken =>
      have heq : logOf key server.taken = answered (logOf key server.calls) := htaken
      rw [heq]
      exact ⟨List.prefix_rfl, fun _ => rfl⟩
  | alive session hsession _ _ htaken =>
      have heq : logOf key server.taken = answered (logOf key server.calls) ++ session.queue :=
        htaken
      rw [heq]
      refine ⟨List.prefix_append _ _, fun hnone => ?_⟩
      cases hsession.symm.trans hnone
  | gone _ _ _ _ htaken =>
      have heq : logOf key server.taken = answered (logOf key server.calls) := htaken
      rw [heq]
      exact ⟨List.prefix_rfl, fun _ => rfl⟩

/-- The write of the pipe is answered. -/
theorem stream_write_answered :
    ∃ server, exec serverStep (streamServer true) streamEvents = some server ∧ ∀ key,
      answered (logOf key server.calls) <+: logOf key server.taken ∧
      (server.sessions key = none →
        answered (logOf key server.calls) = logOf key server.taken) :=
  stream_writes_answered true streamEvents_possible

end Utilpp.Message
