import Utilpp.Message.DatagramSessions

/-!
# Datagrams and their sessions

As long as no session is freed in use, a datagram goes to the session of its address, and there is
one session for an address. The first datagram from an address is read only when the delegates of
`OnConnect` have returned; until then it waits.
-/

namespace Utilpp.Message

open Lib

namespace MessageServer

/-- The address of a session that is there. -/
def addrOf (server : MessageServer) (key : Nat) : Option SockAddr :=
  (server.sessions key).bind MessageSession.remoteAddr

/-- The datagram that is to be read when the delegates of `OnConnect` return. -/
def waiting (server : MessageServer) : List (SockAddr × List UInt8) :=
  match server.running.getLast? with
  | some (.onConnect key (some (some bytes))) =>
      ((server.addrOf key).map fun addr => (addr, bytes)).toList
  | _ => []

theorem addrOf_set {server : MessageServer} {key : Nat} {session session' : MessageSession}
    (hsession : server.sessions key = some session)
    (haddr : session'.remoteAddr = session.remoteAddr) :
    (server.set key session').addrOf = server.addrOf := by
  funext other
  by_cases heq : other = key
  · rw [addrOf, addrOf, heq, server.set_self, hsession]
    exact haddr
  · rw [addrOf, addrOf, server.set_other heq]

theorem waiting_congr {server server' : MessageServer} (hrunning : server'.running = server.running)
    (haddr : server'.addrOf = server.addrOf) : server'.waiting = server.waiting := by
  rw [waiting, waiting, hrunning, haddr]

theorem waiting_onSessionClose (server : MessageServer) (key : Nat) :
    (server.onSessionClose key).waiting = server.waiting := by
  have hlast : ∀ running : List Frame, (Frame.onDisconnect key :: running).getLast? =
      some ((running.getLast?).getD (.onDisconnect key)) := by
    intro running
    rw [List.getLast?_cons]
  rw [waiting, waiting]
  show (match (Frame.onDisconnect key :: server.running).getLast? with
    | some (.onConnect key (some (some bytes))) => _
    | _ => []) = _
  rw [hlast]
  cases server.running.getLast? with
  | none => rfl
  | some frame => rfl

theorem addrOf_free_other (server : MessageServer) {key other : Nat} (h : other ≠ key)
    (session : MessageSession) : (server.free key session).addrOf other = server.addrOf other := by
  rw [addrOf, addrOf, free]
  dsimp only
  rw [Function.update_of_ne h]

theorem addrOf_free_self (server : MessageServer) (key : Nat) (session : MessageSession) :
    (server.free key session).addrOf key = none := by
  rw [addrOf, free]
  dsimp only
  rw [Function.update_self]
  rfl

end MessageServer

theorem SockAddr.eq_of_same {stored addr : SockAddr} (h : stored.same addr = true) :
    stored = addr := by
  rw [same] at h
  split at h
  · cases h
  · next hfamily =>
    split at h
    · cases h
    · obtain ⟨family, data⟩ := stored
      obtain ⟨family', data'⟩ := addr
      cases not_not.mp hfamily
      cases of_decide_eq_true h
      rfl

theorem SockAddr.same_self {addr : SockAddr} (h : addr.supported = true) :
    addr.same addr = true := by
  rw [supported] at h
  rw [same, if_neg (not_not.mpr rfl)]
  split at h
  · cases h
  · exact decide_eq_true rfl

/-- The reads that the user gets, with the addresses of their sessions. -/
def delivered (calls : List (Nat × DelegateCall)) : List (SockAddr × List UInt8) :=
  calls.filterMap fun entry =>
    match entry.2 with
    | .read (some addr) bytes => some (addr, bytes)
    | _ => none

theorem delivered_append (calls : List (Nat × DelegateCall)) (entry : Nat × DelegateCall) :
    delivered (calls ++ [entry]) = delivered calls ++ delivered [entry] := List.filterMap_append

theorem delivered_read (key : Nat) (addr : Option SockAddr) (bytes : List UInt8) :
    delivered [(key, .read addr bytes)] = (addr.map fun addr => (addr, bytes)).toList := by
  cases addr <;> rfl

/-- The datagrams that arrive with something in them. -/
def datagrams (events : List ServerEvent) : List (SockAddr × List UInt8) :=
  events.filterMap fun event =>
    match event with
    | .udpRecv (some addr) (some bytes) => some (addr, bytes)
    | _ => none

/-- The datagrams with the next event. -/
def gather (got : List (SockAddr × List UInt8)) (event : ServerEvent) :
    List (SockAddr × List UInt8) :=
  got ++ datagrams [event]

theorem foldl_gather (got : List (SockAddr × List UInt8)) (events : List ServerEvent) :
    events.foldl gather got = got ++ datagrams events := by
  induction events generalizing got with
  | nil => exact (List.append_nil got).symm
  | cons event events ih =>
      rw [List.foldl_cons, ih, gather, List.append_assoc]
      exact congrArg (got ++ ·) List.filterMap_append.symm

/-- What arrived has been read or is about to be, by the only session for its address. -/
structure Routed (got : List (SockAddr × List UInt8)) (server : MessageServer) : Prop where
  ok : DatagramServer server
  above : ∀ frame ∈ server.running.dropLast, ∃ key, frame = .onDisconnect key
  distinct : ∀ key other addr, server.addrOf key = some addr → server.addrOf other = some addr →
    key = other
  delivered : delivered server.calls ++ server.waiting = got

namespace Routed

variable {got : List (SockAddr × List UInt8)} {server : MessageServer}

theorem addrOf_of_find {addr : SockAddr} {key : Nat} (hfind : server.findAddr addr = some key) :
    server.addrOf key = some addr := by
  obtain ⟨session, hsession, hany⟩ := DatagramServer.findAddr_some hfind
  obtain ⟨stored, hstored, hsame⟩ := (Option.any_eq_true _ _).mp hany
  rw [MessageServer.addrOf, hsession, Option.bind_some, hstored, SockAddr.eq_of_same hsame]

theorem not_addrOf_of_find (h : DatagramServer server) {addr : SockAddr}
    (hsupported : addr.supported = true) (hfind : server.findAddr addr = none) (key : Nat) :
    server.addrOf key ≠ some addr := by
  intro haddr
  obtain ⟨session, hsession, hremote⟩ := Option.bind_eq_some_iff.mp haddr
  have hnot := List.find?_eq_none.mp hfind key (List.mem_range.mpr (h.made key session hsession))
  rw [hsession] at hnot
  dsimp only at hnot
  rw [hremote] at hnot
  exact hnot (SockAddr.same_self hsupported)

/-- A delegate that is called when none is running, for a session that is there. -/
theorem trigger (h : Routed got server) (hrunning : server.running = []) {frame : Frame}
    {call : DelegateCall} {got' : List (SockAddr × List UInt8)}
    (hok : DatagramServer (server.trigger frame call))
    (hgot : Message.delivered (server.calls ++ [(frame.key, call)]) ++
      (server.trigger frame call).waiting = got') :
    Routed got' (server.trigger frame call) where
  ok := hok
  above other hother := by
    rw [MessageServer.trigger, hrunning] at hother
    cases hother
  distinct := h.distinct
  delivered := hgot

/-- A call of `Disconnect`. -/
theorem disconnect (h : Routed got server) {key : Nat} {shutdown : Bool} {server' : MessageServer}
    (hok : DatagramServer server') (hstep : server.disconnect key shutdown = some server') :
    Routed got server' := by
  obtain ⟨session, hsession, rfl⟩ := Option.map_eq_some_iff.mp hstep
  by_cases hstate : session.state = .connected
  · rw [if_neg (not_not.mpr hstate), h.ok.type] at hok ⊢
    dsimp only at hok ⊢
    have haddr : ((server.set key { session with state := .closing }).onSessionClose key).addrOf =
        server.addrOf := MessageServer.addrOf_set hsession rfl
    refine ⟨hok, fun frame hframe => ?_, ?_, ?_⟩
    · have hmem : frame ∈ (Frame.onDisconnect key :: server.running).dropLast := hframe
      cases hrunning : server.running with
      | nil =>
          rw [hrunning] at hmem
          cases hmem
      | cons top rest =>
          rw [hrunning, List.dropLast_cons_cons] at hmem
          rcases List.mem_cons.mp hmem with rfl | hold
          · exact ⟨key, rfl⟩
          · exact h.above frame (hrunning ▸ hold)
    · rw [haddr]
      exact h.distinct
    · have hwaiting : (server.set key { session with state := .closing }).waiting =
          server.waiting :=
        MessageServer.waiting_congr rfl (MessageServer.addrOf_set hsession rfl)
      rw [MessageServer.waiting_onSessionClose, hwaiting]
      show Message.delivered (server.calls ++ [(key, .disconnected)]) ++ _ = got
      rw [delivered_append]
      exact (congrArg (· ++ _) (List.append_nil _)).trans h.delivered
  · rw [if_pos hstate]
    exact h

/-- A session whose writes change. -/
theorem set (h : Routed got server) {key : Nat} {session session' : MessageSession}
    (hsession : server.sessions key = some session)
    (hok : DatagramServer (server.set key session'))
    (haddr : session'.remoteAddr = session.remoteAddr) : Routed got (server.set key session') where
  ok := hok
  above := h.above
  distinct := by
    rw [MessageServer.addrOf_set hsession haddr]
    exact h.distinct
  delivered := by
    have hwaiting : (server.set key session').waiting = server.waiting :=
      MessageServer.waiting_congr rfl (MessageServer.addrOf_set hsession haddr)
    rw [hwaiting]
    exact h.delivered

theorem write (h : Routed got server) {key : Nat} {queued : Bool} {server' : MessageServer}
    (hok : DatagramServer server') (hstep : server.write key queued = some server') :
    Routed got server' := by
  obtain ⟨session, hsession, rfl⟩ := Option.map_eq_some_iff.mp hstep
  dsimp only at hok ⊢
  split at hok
  · next hmem =>
    rw [if_pos hmem]
    exact h.set hsession hok rfl
  next hmem =>
  rw [if_neg hmem]
  split at hok
  · next hboth =>
    rw [if_pos hboth]
    have hset : DatagramServer (server.set key
        { session with
          writeCount := (drawID session.writeCount).2
          writeRequests := session.writeRequests ++ [(drawID session.writeCount).1]
          queue := session.queue ++ [(drawID session.writeCount).1] }) :=
      ⟨hok.type, hok.made, hok.frames, hok.once, hok.closing, hok.disconnecting, hok.orphans⟩
    have hrouted := h.set hsession hset rfl
    exact ⟨hok, hrouted.above, hrouted.distinct, hrouted.delivered⟩
  · next hboth =>
    rw [if_neg hboth]
    exact h.set hsession hok rfl

/-- What is read of a session without a delegate running. -/
theorem receive (h : Routed got server) {key : Nat} {data : Option (List UInt8)}
    {server' : MessageServer} (hrunning : server.running = []) (hok : DatagramServer server')
    (hstep : server.receive key data = some server') :
    Routed
      (got ++ (data.bind fun bytes => (server.addrOf key).map fun addr => (addr, bytes)).toList)
      server' := by
  cases data with
  | none =>
      rw [Option.bind_none, Option.toList_none, List.append_nil]
      exact h.disconnect hok hstep
  | some bytes =>
      obtain ⟨session, hsession, rfl⟩ := Option.map_eq_some_iff.mp hstep
      have hwaiting : server.waiting = [] := by
        rw [MessageServer.waiting, hrunning]
        rfl
      have hgot := h.delivered
      rw [hwaiting, List.append_nil] at hgot
      have haddr : server.addrOf key = session.remoteAddr := by
        rw [MessageServer.addrOf, hsession, Option.bind_some]
      have hlast :
          (server.trigger (.onRead key) (.read session.remoteAddr bytes)).waiting = [] := by
        rw [MessageServer.waiting, MessageServer.trigger, hrunning]
        rfl
      refine h.trigger hrunning hok ?_
      rw [hlast, List.append_nil, delivered_append, hgot, Option.bind_some, haddr]
      exact congrArg (got ++ ·) (delivered_read key session.remoteAddr bytes)

/-- A datagram from a new address. -/
theorem emplace (h : Routed got server) {addr : SockAddr} {data : Option (List UInt8)}
    (hrunning : server.running = []) (hsupported : addr.supported = true)
    (hfind : server.findAddr addr = none)
    (hok : DatagramServer
      ((server.emplace { id := server.idCount, remoteAddr := some addr }).trigger
        (.onConnect server.made (some data)) (.connected (some addr)))) :
    Routed (got ++ (data.map fun bytes => (addr, bytes)).toList)
      ((server.emplace { id := server.idCount, remoteAddr := some addr }).trigger
        (.onConnect server.made (some data)) (.connected (some addr))) := by
  have hgot := h.delivered
  have hnone : server.waiting = [] := by
    rw [MessageServer.waiting, hrunning]
    rfl
  rw [hnone, List.append_nil] at hgot
  generalize hserver : server.emplace { id := server.idCount, remoteAddr := some addr } =
    server' at hok ⊢
  have hself : server'.addrOf server.made = some addr := by
    rw [← hserver, MessageServer.addrOf]
    exact congrArg (Option.bind · _) (server.set_self server.made _)
  have hother : ∀ key, key ≠ server.made → server'.addrOf key = server.addrOf key := by
    intro key hne
    rw [← hserver, MessageServer.addrOf]
    exact congrArg (Option.bind · _) (server.set_other hne _)
  have hempty : server'.running = [] := by
    rw [← hserver]
    exact hrunning
  have hcalls : server'.calls = server.calls := by
    rw [← hserver]
    rfl
  have hnew := not_addrOf_of_find h.ok hsupported hfind
  refine ⟨hok, fun frame hframe => ?_, fun key other addr' hkey hkey' => ?_, ?_⟩
  · rw [MessageServer.trigger, hempty] at hframe
    cases hframe
  · have hkey : server'.addrOf key = some addr' := hkey
    have hkey' : server'.addrOf other = some addr' := hkey'
    by_cases heq : key = server.made <;> by_cases heq' : other = server.made
    · rw [heq, heq']
    · rw [heq, hself] at hkey
      rw [hother other heq', ← hkey] at hkey'
      exact absurd hkey' (hnew other)
    · rw [heq', hself] at hkey'
      rw [hother key heq, ← hkey'] at hkey
      exact absurd hkey (hnew key)
    · rw [hother key heq] at hkey
      rw [hother other heq'] at hkey'
      exact h.distinct key other addr' hkey hkey'
  · have hwaiting : (server'.trigger (.onConnect server.made (some data))
        (.connected (some addr))).waiting = (data.map fun bytes => (addr, bytes)).toList := by
      rw [MessageServer.waiting, MessageServer.trigger, hempty]
      cases data with
      | none => rfl
      | some bytes =>
          show ((server'.addrOf server.made).map fun addr => (addr, bytes)).toList = _
          rw [hself]
          rfl
    rw [hwaiting]
    show Message.delivered (server'.calls ++ [_]) ++ _ = _
    rw [hcalls, delivered_append, hgot]
    exact congrArg (· ++ _) (List.append_nil got)

theorem udpRecv (h : Routed got server) {addr : SockAddr} {data : Option (List UInt8)}
    {server' : MessageServer} (hrunning : server.running = []) (hok : DatagramServer server')
    (hstep : server.uvOnUDPRecv (some addr) data = some server') :
    Routed (gather got (.udpRecv (some addr) data)) server' := by
  have hgather : gather got (.udpRecv (some addr) data) =
      got ++ (data.map fun bytes => (addr, bytes)).toList := by
    cases data <;> rfl
  rw [hgather]
  rw [MessageServer.uvOnUDPRecv, Option.bind_some] at hstep
  split at hstep
  · next key hfind =>
    have hreceive := h.receive hrunning hok hstep
    rw [addrOf_of_find hfind] at hreceive
    cases data <;> exact hreceive
  · next hfind =>
    split at hstep
    · next hsupported =>
      cases hstep
      exact h.emplace hrunning hsupported hfind hok
    · cases hstep

theorem wrote (h : Routed got server) {key : Nat} {status : Int} {server' : MessageServer}
    (hrunning : server.running = []) (hok : DatagramServer server')
    (hstep : server.onWrite key status = some server') : Routed got server' := by
  obtain ⟨session, hsession, hstep⟩ := Option.bind_eq_some_iff.mp hstep
  split at hstep
  · cases hstep
  · next handle queue hqueue =>
    cases hstep
    have hstate : session.state = .connected := by
      by_contra hnot
      cases (h.ok.closing key session hsession hnot).symm.trans hqueue
    have hset : Routed got (server.set key { session with queue }) :=
      h.set hsession (h.ok.set hsession (fun hnot => absurd hstate hnot) id) rfl
    have hnone : (server.set key { session with queue }).waiting = [] := by
      rw [MessageServer.waiting, show (server.set key _).running = [] from hrunning]
      rfl
    have hgot := hset.delivered
    rw [hnone, List.append_nil] at hgot
    refine hset.trigger hrunning hok ?_
    rw [delivered_append, hgot, MessageServer.waiting, MessageServer.trigger,
      show (server.set key _).running = [] from hrunning]
    exact (List.append_nil _).trans (List.append_nil _)

/-- The last delegate returns. -/
theorem pop (h : Routed got server) {frame : Frame} (hrunning : server.running = [frame]) :
    Routed (Message.delivered server.calls) { server with running := [] } where
  ok := h.ok.pop hrunning
  above _ hframe := nomatch hframe
  distinct := h.distinct
  delivered := List.append_nil _

/-- Everything has been read when no datagram waits for the last delegate. -/
theorem delivered_eq (h : Routed got server) {frame : Frame} (hrunning : server.running = [frame])
    (hplain : ∀ key data, frame ≠ .onConnect key (some (some data))) :
    Message.delivered server.calls = got := by
  have hwaiting : server.waiting = [] := by
    rw [MessageServer.waiting, hrunning]
    dsimp only [List.getLast?_singleton]
    split
    · next key bytes heq =>
      cases heq
      exact absurd rfl (hplain key bytes)
    · rfl
  have hgot := h.delivered
  rw [hwaiting, List.append_nil] at hgot
  exact hgot

theorem free (h : Routed got server) {key : Nat} {session : MessageSession} {running : List Frame}
    (hrunning : server.running = .onDisconnect key :: running)
    (hok : DatagramServer ({ server with running }.free key session)) :
    Routed got ({ server with running }.free key session) := by
  have hfree := h.ok.pop_free hrunning
  have hdistinct : ∀ other addr, ({ server with running }.free key session).addrOf other =
      some addr → server.addrOf other = some addr := by
    intro other addr haddr
    by_cases heq : other = key
    · rw [heq, MessageServer.addrOf_free_self] at haddr
      cases haddr
    · rw [MessageServer.addrOf_free_other _ heq] at haddr
      exact haddr
  refine ⟨hok, fun frame hframe => h.above frame ?_, fun first second addr hfirst hsecond =>
    h.distinct first second addr (hdistinct first addr hfirst) (hdistinct second addr hsecond), ?_⟩
  · have hmem : frame ∈ running.dropLast := hframe
    rw [hrunning]
    cases running with
    | nil => cases hmem
    | cons next rest =>
        rw [List.dropLast_cons_cons]
        exact List.mem_cons_of_mem _ hmem
  · have hwaiting : ({ server with running }.free key session).waiting = server.waiting := by
      rw [MessageServer.waiting, MessageServer.waiting, hrunning]
      cases running with
      | nil => rfl
      | cons next rest =>
          rw [List.getLast?_cons_cons]
          show (match (next :: rest).getLast? with
            | some (.onConnect other (some (some bytes))) =>
                ((({ server with running := next :: rest }.free key session).addrOf other).map
                  fun addr => (addr, bytes)).toList
            | _ => []) = _
          split
          · next other bytes hlast =>
            have hne : other ≠ key := hfree _ (List.mem_of_getLast? hlast)
            rw [MessageServer.addrOf_free_other _ hne]
            rfl
          · rfl
    rw [hwaiting]
    exact h.delivered

theorem returns (h : Routed got server) {server' : MessageServer} (hok : DatagramServer server')
    (hstep : server.returns = some server') :
    Routed got server' := by
  rw [MessageServer.returns] at hstep
  split at hstep
  · cases hstep
  next top running hrunning =>
  rcases running with _ | ⟨next, rest⟩
  · have hpop := h.pop hrunning
    cases top with
    | onConnect key datagram =>
        cases datagram with
        | none => exact absurd rfl ((h.ok.frames _ (hrunning ▸ List.mem_cons_self)).2 key)
        | some data =>
            have hreceive := hpop.receive rfl hok hstep
            have hgot := h.delivered
            rw [MessageServer.waiting, hrunning] at hgot
            cases data with
            | none => exact hgot ▸ hreceive
            | some bytes => exact hgot ▸ hreceive
    | onRead key =>
        obtain ⟨session, -, rfl⟩ := Option.map_eq_some_iff.mp hstep
        exact h.delivered_eq hrunning (fun _ _ h => by cases h) ▸ hpop
    | onWrite key handle =>
        obtain ⟨session, hsession, rfl⟩ := Option.map_eq_some_iff.mp hstep
        exact h.delivered_eq hrunning (fun _ _ h => by cases h) ▸ hpop.set hsession hok rfl
    | onDisconnect key =>
        obtain ⟨session, -, rfl⟩ := Option.map_eq_some_iff.mp hstep
        exact h.free hrunning hok
  · obtain ⟨key, rfl⟩ : ∃ key, top = .onDisconnect key := by
      refine h.above top ?_
      rw [hrunning, List.dropLast_cons_cons]
      exact List.mem_cons_self
    obtain ⟨session, -, rfl⟩ := Option.map_eq_some_iff.mp hstep
    exact h.free hrunning hok

theorem step (h : Routed got server) {event : ServerEvent}
    (hpossible : DatagramPossible server event) (hharmless : Harmless server event) :
    ∃ server', serverStep server event = some server' ∧ Routed (gather got event) server' := by
  obtain ⟨server', hstep, hok⟩ := h.ok.step hpossible hharmless
  refine ⟨server', hstep, ?_⟩
  have hsame : datagrams [event] = [] → Routed got server' → Routed (gather got event) server' := by
    intro hnil hrouted
    rw [gather, hnil, List.append_nil]
    exact hrouted
  cases event with
  | connection status accepted => exact hpossible.elim
  | read key data shutdown => exact hpossible.elim
  | udpRecv addr data =>
      obtain ⟨addr, rfl, -⟩ := hharmless
      exact h.udpRecv hpossible hok hstep
  | wrote key status => exact hsame rfl (h.wrote hpossible.1 hok hstep)
  | shutdown key => exact hpossible.elim
  | close key => exact hpossible.elim
  | write key queued => exact hsame rfl (h.write hok hstep)
  | disconnect key shutdown => exact hsame rfl (h.disconnect hok hstep)
  | returns => exact hsame rfl (h.returns hok hstep)

end Routed

theorem udpServer_routed : Routed [] udpServer where
  ok := udpServer_ok
  above _ hframe := nomatch hframe
  distinct _ _ _ haddr := nomatch haddr
  delivered := rfl

end Utilpp.Message
