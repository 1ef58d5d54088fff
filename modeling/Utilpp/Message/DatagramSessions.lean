import Utilpp.Message.Server

/-!
# Sessions over datagrams

Over UDP `Disconnect` frees a session at once: the delegates of `OnDisconnect` run inside the call,
and then the session is gone. `datagram_sessions_safe_iff` says when this is harmless: libuv has no
write of the session any more and none of its delegates is running.
-/

namespace Utilpp.Message

open Lib

/-- What libuv does for datagrams, when no delegate is running, and calls for sessions that are
there. -/
def DatagramPossible (server : MessageServer) : ServerEvent → Prop
  | .udpRecv _ _ => server.running = []
  | .wrote key _ =>
      server.running = [] ∧
        ((∃ session ∈ server.sessions key, session.queue ≠ []) ∨
          ∃ handle, (key, handle) ∈ server.orphans)
  | .write key _ => (server.sessions key).isSome
  | .disconnect key _ => (server.sessions key).isSome
  | .returns => server.running ≠ []
  | _ => False

/-- A call of `Disconnect` is harmless when the session is closing already, or when libuv has no
write of it and none of its delegates is running. -/
def MessageServer.HarmlessDisconnect (server : MessageServer) (key : Nat) : Prop :=
  ∀ session ∈ server.sessions key, session.state = .connected →
    session.queue = [] ∧ ∀ frame ∈ server.running, frame.key ≠ key

/-- An event that frees no session in use: an empty datagram disconnects as well. -/
def Harmless (server : MessageServer) : ServerEvent → Prop
  | .udpRecv addr data =>
      ∃ addr' ∈ addr, addr'.supported = true ∧
        ∀ key ∈ server.findAddr addr', data = none → server.HarmlessDisconnect key
  | .disconnect key _ => server.HarmlessDisconnect key
  | .returns =>
      match server.running with
      | .onConnect key (some none) :: running =>
          { server with running }.HarmlessDisconnect key
      | _ => True
  | _ => True

instance (server : MessageServer) :
    (event : ServerEvent) → Decidable (DatagramPossible server event)
  | .udpRecv _ _ => inferInstanceAs (Decidable (_ = _))
  | .wrote key _ =>
      decidable_of_iff
        (server.running = [] ∧
          ((∃ session ∈ server.sessions key, session.queue ≠ []) ∨
            ∃ entry ∈ server.orphans, entry.1 = key))
        (and_congr_right fun _ => or_congr_right
          ⟨fun ⟨entry, hmem, hkey⟩ => ⟨entry.2, hkey ▸ hmem⟩,
            fun ⟨handle, hmem⟩ => ⟨(key, handle), hmem, rfl⟩⟩)
  | .write _ _ => inferInstanceAs (Decidable (_ = true))
  | .disconnect _ _ => inferInstanceAs (Decidable (_ = true))
  | .returns => inferInstanceAs (Decidable (¬ _))
  | .connection _ _ => inferInstanceAs (Decidable False)
  | .read _ _ _ => inferInstanceAs (Decidable False)
  | .shutdown _ => inferInstanceAs (Decidable False)
  | .close _ => inferInstanceAs (Decidable False)

instance (server : MessageServer) (key : Nat) : Decidable (server.HarmlessDisconnect key) :=
  inferInstanceAs (Decidable (∀ session ∈ server.sessions key, _ → _))

instance (server : MessageServer) : (event : ServerEvent) → Decidable (Harmless server event)
  | .udpRecv addr _ => inferInstanceAs (Decidable (∃ addr' ∈ addr, _ ∧ ∀ key ∈ _, _ → _))
  | .disconnect key _ => inferInstanceAs (Decidable (server.HarmlessDisconnect key))
  | .returns =>
      match h : server.running with
      | .onConnect key (some none) :: running =>
          decidable_of_iff ({ server with running }.HarmlessDisconnect key)
            (by rw [Harmless, h])
      | [] => .isTrue (by rw [Harmless, h]; trivial)
      | .onConnect _ none :: _ => .isTrue (by rw [Harmless, h]; trivial)
      | .onConnect _ (some (some _)) :: _ => .isTrue (by rw [Harmless, h]; trivial)
      | .onRead _ :: _ => .isTrue (by rw [Harmless, h]; trivial)
      | .onWrite _ _ :: _ => .isTrue (by rw [Harmless, h]; trivial)
      | .onDisconnect _ :: _ => .isTrue (by rw [Harmless, h]; trivial)
  | .connection _ _ => .isTrue trivial
  | .read _ _ _ => .isTrue trivial
  | .wrote _ _ => .isTrue trivial
  | .shutdown _ => .isTrue trivial
  | .close _ => .isTrue trivial
  | .write _ _ => .isTrue trivial

/-- What holds as long as every event is harmless. -/
structure DatagramServer (server : MessageServer) : Prop where
  type : server.type = .udp
  made : ∀ key session, server.sessions key = some session → key < server.made
  frames : ∀ frame ∈ server.running, (∃ session, server.sessions frame.key = some session) ∧
    ∀ key, frame ≠ .onConnect key none
  once : (server.running.map Frame.key).Nodup
  closing : ∀ key session, server.sessions key = some session → session.state ≠ .connected →
    session.queue = []
  disconnecting : ∀ key, .onDisconnect key ∈ server.running →
    ∀ session, server.sessions key = some session → session.state ≠ .connected
  orphans : server.orphans = []

namespace DatagramServer

variable {server : MessageServer}

/-- A session that changes its writes. -/
theorem set (h : DatagramServer server) {key : Nat} {session session' : MessageSession}
    (hsession : server.sessions key = some session)
    (hclosing : session'.state ≠ .connected → session'.queue = [])
    (hkeep : session.state ≠ .connected → session'.state ≠ .connected) :
    DatagramServer (server.set key session') where
  type := h.type
  made other old hold := by
    by_cases heq : other = key
    · exact heq ▸ h.made key session hsession
    · exact h.made other old ((server.set_other heq session').symm.trans hold)
  frames frame hframe := by
    obtain ⟨⟨old, hold⟩, hplain⟩ := h.frames frame hframe
    refine ⟨?_, hplain⟩
    by_cases heq : frame.key = key
    · exact ⟨session', heq ▸ server.set_self key session'⟩
    · exact ⟨old, (server.set_other heq session').trans hold⟩
  once := h.once
  closing other old hold := by
    by_cases heq : other = key
    · rw [heq, server.set_self] at hold
      cases hold
      exact hclosing
    · exact h.closing other old ((server.set_other heq session').symm.trans hold)
  disconnecting other hframe old hold := by
    by_cases heq : other = key
    · subst heq
      cases (server.set_self other session').symm.trans hold
      exact hkeep (h.disconnecting other hframe session hsession)
    · exact h.disconnecting other hframe old ((server.set_other heq session').symm.trans hold)
  orphans := h.orphans

/-- A delegate that is called for a session with none running. -/
theorem trigger (h : DatagramServer server) (frame : Frame) {call : DelegateCall}
    {session : MessageSession} (hsession : server.sessions frame.key = some session)
    (hplain : ∀ key, frame ≠ .onConnect key none)
    (hstate : frame = .onDisconnect frame.key → session.state ≠ .connected)
    (hfree : ∀ other ∈ server.running, other.key ≠ frame.key) :
    DatagramServer (server.trigger frame call) where
  type := h.type
  made := h.made
  frames other hother := by
    rcases List.mem_cons.mp hother with rfl | hold
    · exact ⟨⟨session, hsession⟩, hplain⟩
    · exact h.frames other hold
  once := by
    refine List.nodup_cons.mpr ⟨fun hmem => ?_, h.once⟩
    obtain ⟨other, hother, hkey⟩ := List.mem_map.mp hmem
    exact hfree other hother hkey
  closing := h.closing
  disconnecting key hframe other hother := by
    rcases List.mem_cons.mp hframe with rfl | hold
    · cases hsession.symm.trans hother
      exact hstate rfl
    · exact h.disconnecting key hold other hother
  orphans := h.orphans

theorem disconnect (h : DatagramServer server) {key : Nat} {session : MessageSession}
    (hsession : server.sessions key = some session) (hok : server.HarmlessDisconnect key)
    (shutdown : Bool) :
    ∃ server', server.disconnect key shutdown = some server' ∧ DatagramServer server' := by
  rw [MessageServer.disconnect, hsession, Option.map_some]
  refine ⟨_, rfl, ?_⟩
  by_cases hstate : session.state = .connected
  · obtain ⟨hqueue, hfree⟩ := hok session hsession hstate
    rw [if_neg (not_not.mpr hstate), h.type]
    have hset : DatagramServer (server.set key { session with state := .closing }) :=
      h.set hsession (fun _ => hqueue) fun _ => nofun
    exact hset.trigger (.onDisconnect key) (server.set_self key _) nofun (fun _ => nofun) hfree
  · rw [if_pos hstate]
    exact h

theorem write (h : DatagramServer server) {key : Nat} {session : MessageSession}
    (hsession : server.sessions key = some session) (queued : Bool) :
    ∃ server', server.write key queued = some server' ∧ DatagramServer server' := by
  have hclosing := h.closing key session hsession
  rw [MessageServer.write, hsession, Option.map_some]
  refine ⟨_, rfl, ?_⟩
  dsimp only
  split
  · exact h.set hsession hclosing id
  split
  · next hboth =>
    have hset : DatagramServer (server.set key
        { session with
          writeCount := (drawID session.writeCount).2
          writeRequests := session.writeRequests ++ [(drawID session.writeCount).1]
          queue := session.queue ++ [(drawID session.writeCount).1] }) :=
      h.set hsession (fun hnot => absurd hboth.1 hnot) id
    exact ⟨hset.type, hset.made, hset.frames, hset.once, hset.closing, hset.disconnecting,
      hset.orphans⟩
  · exact h.set hsession hclosing id

/-- The data of a datagram for a session none of whose delegates is running. -/
theorem receive (h : DatagramServer server) {key : Nat} {session : MessageSession}
    (hsession : server.sessions key = some session) {data : Option (List UInt8)}
    (hok : data = none → server.HarmlessDisconnect key)
    (hfree : ∀ other ∈ server.running, other.key ≠ key) :
    ∃ server', server.receive key data = some server' ∧ DatagramServer server' := by
  cases data with
  | none => exact h.disconnect hsession (hok rfl) false
  | some bytes =>
      rw [MessageServer.receive, MessageServer.uvOnRead, hsession]
      exact ⟨_, rfl, h.trigger (.onRead key) hsession nofun nofun hfree⟩

theorem findAddr_some {addr : SockAddr} {key : Nat} (hfind : server.findAddr addr = some key) :
    ∃ session, server.sessions key = some session ∧
      session.remoteAddr.any (fun stored => stored.same addr) = true := by
  have hprop := List.find?_some hfind
  split at hprop
  · cases hprop
  · next session hsession => exact ⟨session, hsession, hprop⟩

/-- A new session, and the delegates of `OnConnect` for it. -/
theorem emplace (h : DatagramServer server) (hrunning : server.running = []) (addr : SockAddr)
    (data : Option (List UInt8)) :
    DatagramServer
      ((server.emplace { id := server.idCount, remoteAddr := some addr }).trigger
        (.onConnect server.made (some data)) (.connected (some addr))) := by
  have hempty : DatagramServer
      (server.emplace { id := server.idCount, remoteAddr := some addr }) := by
    refine ⟨h.type, fun other old hold => ?_, fun frame hframe => ?_, h.once,
      fun other old hold => ?_, fun other hframe => ?_, h.orphans⟩
    · show other < server.made + 1
      by_cases heq : other = server.made
      · omega
      · exact Nat.lt_succ_of_lt (h.made other old ((server.set_other heq _).symm.trans hold))
    · have hnil : frame ∈ server.running := hframe
      rw [hrunning] at hnil
      cases hnil
    · by_cases heq : other = server.made
      · subst heq
        cases (server.set_self server.made _).symm.trans hold
        exact fun hnot => absurd rfl hnot
      · exact h.closing other old ((server.set_other heq _).symm.trans hold)
    · have hnil : .onDisconnect other ∈ server.running := hframe
      rw [hrunning] at hnil
      cases hnil
  refine hempty.trigger (.onConnect server.made (some data)) (server.set_self server.made _) nofun
    nofun ?_
  intro frame hframe
  have hnil : frame ∈ server.running := hframe
  rw [hrunning] at hnil
  cases hnil

theorem udpRecv (h : DatagramServer server) {addr : Option SockAddr} {data : Option (List UInt8)}
    (hrunning : server.running = []) (hok : Harmless server (.udpRecv addr data)) :
    ∃ server', server.uvOnUDPRecv addr data = some server' ∧ DatagramServer server' := by
  obtain ⟨addr', hmem, hsupported, hharmless⟩ := hok
  cases hmem
  rw [MessageServer.uvOnUDPRecv, Option.bind_some]
  cases hfind : server.findAddr addr' with
  | some key =>
      obtain ⟨session, hsession, -⟩ := findAddr_some hfind
      refine h.receive hsession (hharmless key hfind) ?_
      rw [hrunning]
      exact nofun
  | none =>
      dsimp only
      rw [if_pos hsupported]
      exact ⟨_, rfl, h.emplace hrunning addr' data⟩

theorem wrote (h : DatagramServer server) {key : Nat} {session : MessageSession}
    (hrunning : server.running = []) (hsession : server.sessions key = some session)
    (hqueue : session.queue ≠ []) (status : Int) :
    ∃ server', server.onWrite key status = some server' ∧ DatagramServer server' := by
  obtain ⟨handle, queue, hcons⟩ := List.exists_cons_of_ne_nil hqueue
  have hset : DatagramServer (server.set key { session with queue }) :=
    h.set hsession (fun hnot => absurd (h.closing key session hsession hnot) hqueue) id
  rw [MessageServer.onWrite, hsession, Option.bind_some, hcons]
  refine ⟨_, rfl, hset.trigger (.onWrite key handle) (server.set_self key _) nofun nofun ?_⟩
  rw [show (server.set key _).running = server.running from rfl, hrunning]
  exact nofun

/-- The stack without the delegate that returns. -/
theorem pop (h : DatagramServer server) {frame : Frame} {running : List Frame}
    (hrunning : server.running = frame :: running) : DatagramServer { server with running } where
  type := h.type
  made := h.made
  frames other hother := h.frames other (hrunning ▸ List.mem_cons_of_mem _ hother)
  once := (List.nodup_cons.mp (hrunning ▸ h.once)).2
  closing := h.closing
  disconnecting key hframe := h.disconnecting key (hrunning ▸ List.mem_cons_of_mem _ hframe)
  orphans := h.orphans

theorem pop_free (h : DatagramServer server) {frame : Frame} {running : List Frame}
    (hrunning : server.running = frame :: running) : ∀ other ∈ running, other.key ≠ frame.key := by
  have honce := h.once
  rw [hrunning] at honce
  intro other hother hkey
  exact (List.nodup_cons.mp honce).1 (List.mem_map.mpr ⟨other, hother, hkey⟩)

/-- A session is freed when `OnDisconnect` returns. -/
theorem free (h : DatagramServer server) {key : Nat} {session : MessageSession}
    {running : List Frame} (hrunning : server.running = .onDisconnect key :: running)
    (hsession : server.sessions key = some session) :
    DatagramServer ({ server with running }.free key session) := by
  have hpop := h.pop hrunning
  have hfree := h.pop_free hrunning
  have hother : ∀ other old, Function.update server.sessions key none other = some old →
      server.sessions other = some old := by
    intro other old hold
    by_cases heq : other = key
    · rw [heq, Function.update_self] at hold
      cases hold
    · exact (Function.update_of_ne heq _ _).symm.trans hold
  have hqueue : session.queue = [] := by
    refine h.closing key session hsession (h.disconnecting key ?_ session hsession)
    rw [hrunning]
    exact List.mem_cons_self
  refine ⟨h.type, fun other old hold => h.made other old (hother other old hold),
    fun frame hframe => ?_, hpop.once,
    fun other old hold => h.closing other old (hother other old hold),
    fun other hframe old hold => hpop.disconnecting other hframe old (hother other old hold), ?_⟩
  · obtain ⟨⟨old, hold⟩, hplain⟩ := hpop.frames frame hframe
    exact ⟨⟨old, (Function.update_of_ne (hfree frame hframe) _ _).trans hold⟩, hplain⟩
  · show server.orphans ++ session.queue.map _ = []
    rw [h.orphans, hqueue]
    rfl

theorem returns (h : DatagramServer server) (hrunning : server.running ≠ [])
    (hok : Harmless server .returns) :
    ∃ server', server.returns = some server' ∧ DatagramServer server' := by
  obtain ⟨frame, running, hcons⟩ := List.exists_cons_of_ne_nil hrunning
  obtain ⟨⟨session, hsession⟩, hplain⟩ := h.frames frame (hcons ▸ List.mem_cons_self)
  have hpop := h.pop hcons
  have hfree := h.pop_free hcons
  rw [MessageServer.returns, hcons]
  rw [Harmless, hcons] at hok
  cases frame with
  | onConnect key datagram =>
      cases datagram with
      | none => exact absurd rfl (hplain key)
      | some data =>
          refine hpop.receive hsession (fun hnone => ?_) hfree
          subst hnone
          exact hok
  | onRead key =>
      have hthere : server.sessions key = some session := hsession
      dsimp only
      rw [hthere]
      exact ⟨_, rfl, hpop⟩
  | onWrite key handle =>
      have hthere : server.sessions key = some session := hsession
      dsimp only
      rw [hthere]
      exact ⟨_, rfl, hpop.set hsession (hpop.closing key session hsession) id⟩
  | onDisconnect key =>
      have hthere : server.sessions key = some session := hsession
      dsimp only
      rw [hthere]
      exact ⟨_, rfl, h.free hcons hthere⟩

theorem step (h : DatagramServer server) {event : ServerEvent}
    (hpossible : DatagramPossible server event) (hok : Harmless server event) :
    ∃ server', serverStep server event = some server' ∧ DatagramServer server' := by
  cases event with
  | connection status accepted => exact hpossible.elim
  | read key data shutdown => exact hpossible.elim
  | udpRecv addr data => exact h.udpRecv hpossible hok
  | wrote key status =>
      obtain ⟨hrunning, ⟨session, hsession, hqueue⟩ | ⟨handle, hmem⟩⟩ := hpossible
      · exact h.wrote hrunning hsession hqueue status
      · rw [h.orphans] at hmem
        cases hmem
  | shutdown key => exact hpossible.elim
  | close key => exact hpossible.elim
  | write key queued =>
      obtain ⟨session, hsession⟩ := Option.isSome_iff_exists.mp hpossible
      exact h.write hsession queued
  | disconnect key shutdown =>
      obtain ⟨session, hsession⟩ := Option.isSome_iff_exists.mp hpossible
      exact h.disconnect hsession hok shutdown
  | returns => exact h.returns hpossible hok

end DatagramServer

/-! ## Sessions that are freed in use -/

/-- libuv has a write of a session that is gone or about to be, or a delegate is running for one. -/
inductive Spoiled (server : MessageServer) : Prop where
  | orphan (h : server.orphans ≠ [])
  | pending (key : Nat) (session : MessageSession) (hframe : .onDisconnect key ∈ server.running)
      (hsession : server.sessions key = some session) (hqueue : session.queue ≠ [])
  | dangling (frame : Frame) (hframe : frame ∈ server.running)
      (hplain : ∀ key, frame ≠ .onConnect key none) (hsession : server.sessions frame.key = none)
  | below (above below : List Frame) (frame : Frame)
      (hrunning : server.running = above ++ .onDisconnect frame.key :: below)
      (hframe : frame ∈ below) (hplain : ∀ key, frame ≠ .onConnect key none)

/-- A step that pushes delegates, makes no new session and answers no write. -/
structure Keeps (server server' : MessageServer) : Prop where
  running : ∃ more, server'.running = more ++ server.running
  gone : ∀ key, server.sessions key = none → server'.sessions key = none
  queue : ∀ key session, server.sessions key = some session →
    ∃ session', server'.sessions key = some session' ∧ (session.queue ≠ [] → session'.queue ≠ [])
  orphans : server'.orphans = server.orphans

namespace Keeps

variable {server server' : MessageServer}

theorem refl (server : MessageServer) : Keeps server server :=
  ⟨⟨[], rfl⟩, fun _ => id, fun _ session h => ⟨session, h, id⟩, rfl⟩

theorem spoiled (hkeeps : Keeps server server') (h : Spoiled server) : Spoiled server' := by
  obtain ⟨more, hmore⟩ := hkeeps.running
  cases h with
  | orphan h => exact .orphan (hkeeps.orphans ▸ h)
  | pending key session hframe hsession hqueue =>
      obtain ⟨session', hsession', hqueue'⟩ := hkeeps.queue key session hsession
      exact .pending key session' (hmore ▸ List.mem_append_right _ hframe) hsession'
        (hqueue' hqueue)
  | dangling frame hframe hplain hsession =>
      exact .dangling frame (hmore ▸ List.mem_append_right _ hframe) hplain
        (hkeeps.gone frame.key hsession)
  | below above below frame hrunning hframe hplain =>
      refine .below (more ++ above) below frame ?_ hframe hplain
      rw [hmore, hrunning, List.append_assoc]

/-- A session that changes and keeps its writes. -/
theorem set {key : Nat} {session session' : MessageSession}
    (hsession : server.sessions key = some session)
    (hqueue : session.queue ≠ [] → session'.queue ≠ []) :
    Keeps server (server.set key session') := by
  refine ⟨⟨[], rfl⟩, fun other hnone => ?_, fun other old hold => ?_, rfl⟩
  · by_cases heq : other = key
    · rw [heq, hsession] at hnone
      cases hnone
    · exact (server.set_other heq session').trans hnone
  · by_cases heq : other = key
    · rw [heq, hsession] at hold
      cases hold
      exact ⟨session', heq ▸ server.set_self key session', hqueue⟩
    · exact ⟨old, (server.set_other heq session').trans hold, id⟩

theorem trigger (h : Keeps server server') (frame : Frame) (call : DelegateCall) :
    Keeps server (server'.trigger frame call) := by
  obtain ⟨more, hmore⟩ := h.running
  exact ⟨⟨frame :: more, congrArg (frame :: ·) hmore⟩, h.gone, h.queue, h.orphans⟩

theorem disconnect {key : Nat} {shutdown : Bool}
    (h : server.disconnect key shutdown = some server') : Keeps server server' := by
  obtain ⟨session, hsession, rfl⟩ := Option.map_eq_some_iff.mp h
  split
  · exact refl server
  split
  · have hset : Keeps server (server.set key { session with state := .closing }) :=
      set hsession id
    exact hset.trigger (.onDisconnect key) .disconnected
  · exact set hsession id

theorem write {key : Nat} {queued : Bool} (h : server.write key queued = some server') :
    Keeps server server' := by
  obtain ⟨session, hsession, rfl⟩ := Option.map_eq_some_iff.mp h
  dsimp only
  split
  · exact set hsession id
  split
  · have hset : Keeps server (server.set key
        { session with
          writeCount := (drawID session.writeCount).2
          writeRequests := session.writeRequests ++ [(drawID session.writeCount).1]
          queue := session.queue ++ [(drawID session.writeCount).1] }) :=
      set hsession fun _ => List.append_ne_nil_of_right_ne_nil _ nofun
    exact ⟨hset.running, hset.gone, hset.queue, hset.orphans⟩
  · exact set hsession id

theorem receive {key : Nat} {data : Option (List UInt8)}
    (h : server.receive key data = some server') : Keeps server server' := by
  cases data with
  | none => exact disconnect h
  | some bytes =>
      obtain ⟨session, -, rfl⟩ := Option.map_eq_some_iff.mp h
      exact (refl server).trigger _ _

end Keeps

namespace Spoiled

variable {server server' : MessageServer}

/-- With no delegate running it is a write that is left. -/
theorem orphans_ne_nil (h : Spoiled server) (hrunning : server.running = []) :
    server.orphans ≠ [] := by
  cases h with
  | orphan h => exact h
  | pending key session hframe => rw [hrunning] at hframe; cases hframe
  | dangling frame hframe => rw [hrunning] at hframe; cases hframe
  | below above below frame hcons =>
      rw [hrunning] at hcons
      cases (List.append_eq_nil_iff.mp hcons.symm).2

theorem of_queue {key : Nat} {session : MessageSession} (hqueue : session.queue ≠ []) :
    Spoiled (server.free key session) := by
  refine .orphan fun hnil => hqueue ?_
  exact List.map_eq_nil_iff.mp (List.append_eq_nil_iff.mp hnil).2

theorem free (h : Spoiled server) {key : Nat} {session : MessageSession}
    (hsession : server.sessions key = some session) : Spoiled (server.free key session) := by
  cases h with
  | orphan h => exact .orphan fun hnil => h (List.append_eq_nil_iff.mp hnil).1
  | pending other old hframe hold hqueue =>
      by_cases heq : other = key
      · rw [heq, hsession] at hold
        cases hold
        exact of_queue hqueue
      · exact .pending other old hframe ((Function.update_of_ne heq _ _).trans hold) hqueue
  | dangling frame hframe hplain hnone =>
      refine .dangling frame hframe hplain ?_
      by_cases heq : frame.key = key
      · rw [MessageServer.free, heq]
        exact Function.update_self key _ _
      · exact (Function.update_of_ne heq _ _).trans hnone
  | below above below frame hrunning hframe hplain =>
      exact .below above below frame hrunning hframe hplain

/-- Without the delegate that returns, what is spoiled stays so unless that delegate itself was
concerned. -/
theorem pop (h : Spoiled server) {top : Frame} {running : List Frame}
    (hrunning : server.running = top :: running) :
    Spoiled { server with running } ∨
      (∃ key session, top = .onDisconnect key ∧ server.sessions key = some session ∧
        session.queue ≠ []) ∨
      ((∀ key, top ≠ .onConnect key none) ∧ server.sessions top.key = none) ∨
      ∃ frame ∈ running, top = .onDisconnect frame.key ∧ ∀ key, frame ≠ .onConnect key none := by
  cases h with
  | orphan h => exact .inl (.orphan h)
  | pending key session hframe hsession hqueue =>
      rw [hrunning] at hframe
      rcases List.mem_cons.mp hframe with heq | hold
      · exact .inr (.inl ⟨key, session, heq.symm, hsession, hqueue⟩)
      · exact .inl (.pending key session hold hsession hqueue)
  | dangling frame hframe hplain hnone =>
      rw [hrunning] at hframe
      rcases List.mem_cons.mp hframe with rfl | hold
      · exact .inr (.inr (.inl ⟨hplain, hnone⟩))
      · exact .inl (.dangling frame hold hplain hnone)
  | below above below frame hcons hframe hplain =>
      cases above with
      | nil =>
          cases hrunning.symm.trans hcons
          exact .inr (.inr (.inr ⟨frame, hframe, rfl, hplain⟩))
      | cons other above =>
          cases hrunning.symm.trans hcons
          exact .inl (.below above below frame rfl hframe hplain)

theorem receive_some {key : Nat} {data : Option (List UInt8)}
    (h : server.receive key data = some server') :
    ∃ session, server.sessions key = some session := by
  cases data with
  | none =>
      obtain ⟨session, hsession, -⟩ := Option.map_eq_some_iff.mp h
      exact ⟨session, hsession⟩
  | some bytes =>
      obtain ⟨session, hsession, -⟩ := Option.map_eq_some_iff.mp h
      exact ⟨session, hsession⟩

/-- Behind a delegate that returns something is left of it as well, or the return touches what is
gone. -/
theorem returns (h : Spoiled server) (hreturns : server.returns = some server') :
    Spoiled server' := by
  rw [MessageServer.returns] at hreturns
  split at hreturns
  · cases hreturns
  next top running hrunning =>
  rcases h.pop hrunning with hpop | ⟨key, session, rfl, hsession, hqueue⟩ | ⟨hplain, hnone⟩ |
    ⟨frame, hframe, rfl, hplain⟩
  · cases top with
    | onConnect key datagram =>
        cases datagram with
        | none =>
            cases hreturns
            exact hpop
        | some data => exact (Keeps.receive hreturns).spoiled hpop
    | onRead key =>
        obtain ⟨session, -, rfl⟩ := Option.map_eq_some_iff.mp hreturns
        exact hpop
    | onWrite key handle =>
        obtain ⟨session, hsession, rfl⟩ := Option.map_eq_some_iff.mp hreturns
        refine (Keeps.set hsession ?_).spoiled hpop
        exact id
    | onDisconnect key =>
        obtain ⟨session, hsession, rfl⟩ := Option.map_eq_some_iff.mp hreturns
        exact hpop.free hsession
  · obtain ⟨other, hother, rfl⟩ := Option.map_eq_some_iff.mp hreturns
    cases hsession.symm.trans hother
    exact of_queue hqueue
  · cases top with
    | onConnect key datagram =>
        cases datagram with
        | none => exact absurd rfl (hplain key)
        | some data =>
            obtain ⟨session, hsession⟩ := receive_some hreturns
            cases hnone.symm.trans hsession
    | onRead key =>
        obtain ⟨session, hsession, -⟩ := Option.map_eq_some_iff.mp hreturns
        cases hnone.symm.trans hsession
    | onWrite key handle =>
        obtain ⟨session, hsession, -⟩ := Option.map_eq_some_iff.mp hreturns
        cases hnone.symm.trans hsession
    | onDisconnect key =>
        obtain ⟨session, hsession, -⟩ := Option.map_eq_some_iff.mp hreturns
        cases hnone.symm.trans hsession
  · obtain ⟨session, -, rfl⟩ := Option.map_eq_some_iff.mp hreturns
    exact .dangling frame hframe hplain (Function.update_self _ _ _)

theorem step (h : Spoiled server) {event : ServerEvent} (hpossible : DatagramPossible server event)
    (hstep : serverStep server event = some server') : Spoiled server' := by
  cases event with
  | connection status accepted => exact hpossible.elim
  | read key data shutdown => exact hpossible.elim
  | udpRecv addr data =>
      have horphans := h.orphans_ne_nil hpossible
      obtain ⟨addr, -, hstep⟩ := Option.bind_eq_some_iff.mp hstep
      split at hstep
      · exact .orphan ((Keeps.receive hstep).orphans ▸ horphans)
      split at hstep
      · cases hstep
        exact .orphan horphans
      · cases hstep
  | wrote key status =>
      have horphans := h.orphans_ne_nil hpossible.1
      obtain ⟨session, -, hstep⟩ := Option.bind_eq_some_iff.mp hstep
      split at hstep
      · cases hstep
      · cases hstep
        exact .orphan horphans
  | shutdown key => exact hpossible.elim
  | close key => exact hpossible.elim
  | write key queued => exact (Keeps.write hstep).spoiled h
  | disconnect key shutdown => exact (Keeps.disconnect hstep).spoiled h
  | returns => exact h.returns hstep

/-- A call of `Disconnect` that is not harmless spoils the session. -/
theorem of_disconnect (h : DatagramServer server) {key : Nat} {shutdown : Bool}
    (hnot : ¬ server.HarmlessDisconnect key)
    (hstep : server.disconnect key shutdown = some server') : Spoiled server' := by
  obtain ⟨session, hsession, rfl⟩ := Option.map_eq_some_iff.mp hstep
  have hstate : session.state = .connected := by
    by_contra hother
    refine hnot fun other hmem hconnected => ?_
    cases hsession.symm.trans hmem
    exact absurd hconnected hother
  rw [if_neg (not_not.mpr hstate), h.type]
  by_cases hqueue : session.queue = []
  · obtain ⟨frame, hframe, rfl⟩ : ∃ frame ∈ server.running, frame.key = key := by
      by_contra hnone
      refine hnot fun other hmem _ => ?_
      cases hsession.symm.trans hmem
      exact ⟨hqueue, fun frame hframe hkey => hnone ⟨frame, hframe, hkey⟩⟩
    exact .below [] server.running frame rfl hframe (h.frames frame hframe).2
  · exact .pending key { session with state := .closing } List.mem_cons_self
      (server.set_self key _) hqueue

theorem of_receive (h : DatagramServer server) {key : Nat} {data : Option (List UInt8)}
    (hnot : ¬ (data = none → server.HarmlessDisconnect key))
    (hstep : server.receive key data = some server') : Spoiled server' := by
  obtain ⟨rfl, hharm⟩ := Classical.not_imp.mp hnot
  exact of_disconnect h hharm hstep

theorem supported_of_any {addr : SockAddr} {remoteAddr : Option SockAddr}
    (h : remoteAddr.any (fun stored => stored.same addr) = true) : addr.supported = true := by
  obtain ⟨stored, -, hsame⟩ := (Option.any_eq_true _ _).mp h
  rw [SockAddr.same] at hsame
  rw [SockAddr.supported]
  split at hsame
  · cases hsame
  · split at hsame
    · cases hsame
    · rfl

theorem of_step (h : DatagramServer server) {event : ServerEvent}
    (hpossible : DatagramPossible server event) (hnot : ¬ Harmless server event)
    (hstep : serverStep server event = some server') : Spoiled server' := by
  cases event with
  | udpRecv addr data =>
      obtain ⟨addr', rfl, hrecv⟩ := Option.bind_eq_some_iff.mp hstep
      split at hrecv
      · next key hfind =>
        obtain ⟨session, hsession, hany⟩ := DatagramServer.findAddr_some hfind
        refine of_receive h (fun hharm => hnot ⟨addr', rfl, supported_of_any hany, ?_⟩) hrecv
        intro other hother hnone
        cases hfind.symm.trans hother
        exact hharm hnone
      · next hfind =>
        split at hrecv
        · next hsupported =>
          refine absurd ⟨addr', rfl, hsupported, fun other hother => ?_⟩ hnot
          cases hfind.symm.trans hother
        · cases hrecv
  | disconnect key shutdown => exact of_disconnect h hnot hstep
  | returns =>
      rw [serverStep, MessageServer.returns] at hstep
      split at hstep
      · cases hstep
      next top running hrunning =>
      rw [Harmless, hrunning] at hnot
      split at hnot
      · next key rest heq =>
        cases heq
        exact of_disconnect (h.pop hrunning) hnot hstep
      · exact absurd trivial hnot
  | _ => exact absurd trivial hnot

end Spoiled

/-- A server that was made for datagrams. -/
def udpServer : MessageServer := { type := .udp }

theorem udpServer_ok : DatagramServer udpServer where
  type := rfl
  made _ _ hsession := nomatch hsession
  frames _ hframe := nomatch hframe
  once := List.nodup_nil
  closing _ _ hsession := nomatch hsession
  disconnecting _ hframe := nomatch hframe
  orphans := rfl

/-- When all delegates have returned at the end of a run over UDP, the run has touched no session
that was freed and libuv has no write of one exactly when no event of it was harmful. -/
theorem datagram_sessions_safe_iff {events : List ServerEvent}
    (hpossible : Guarded serverStep DatagramPossible udpServer events)
    (hdone : ∀ server, exec serverStep udpServer events = some server → server.running = []) :
    (∃ server, exec serverStep udpServer events = some server ∧ server.orphans = []) ↔
      Guarded serverStep Harmless udpServer events := by
  constructor
  · rintro ⟨server, hrun, horphans⟩
    by_contra hnot
    have hspoiled : Spoiled server :=
      exec_spoiled_of (fun _ _ h => h.step) (fun _ _ _ h hp hn hs => .of_step h hp hn hs)
        (fun _ _ _ h hp hs => h.step hp hs) udpServer_ok hpossible hnot hrun
    exact hspoiled.orphans_ne_nil (hdone server hrun) horphans
  · intro hok
    obtain ⟨server, hrun, h⟩ :=
      exec_defined (fun _ _ h hboth => h.step hboth.1 hboth.2) udpServer_ok (hpossible.and hok)
    exact ⟨server, hrun, h.orphans⟩

/-- A datagram, an answer to it from the delegate, and the end of the session behind it. -/
def datagramEvents : List ServerEvent :=
  [.udpRecv (some ⟨.inet, [1]⟩) (some [7]), .returns, .write 0 true, .returns, .wrote 0 0, .returns,
    .disconnect 0 false, .returns]

/-- The same, but the session is disconnected while libuv has the answer. -/
def hastyEvents : List ServerEvent :=
  [.udpRecv (some ⟨.inet, [1]⟩) (some [7]), .returns, .write 0 true, .returns, .disconnect 0 false,
    .returns]

/-- The first run is safe and the second one is not. -/
theorem datagram_sessions_safe_when_answered :
    (∃ server, exec serverStep udpServer datagramEvents = some server ∧ server.orphans = []) ∧
      ¬ ∃ server, exec serverStep udpServer hastyEvents = some server ∧ server.orphans = [] := by
  have hdone : ∀ server, exec serverStep udpServer datagramEvents = some server →
      server.running = [] := by
    intro server hrun
    cases hrun
    rfl
  have hhasty : ∀ server, exec serverStep udpServer hastyEvents = some server →
      server.running = [] := by
    intro server hrun
    cases hrun
    rfl
  rw [datagram_sessions_safe_iff (by decide) hdone, datagram_sessions_safe_iff (by decide) hhasty]
  exact ⟨by decide, by decide⟩

end Utilpp.Message
