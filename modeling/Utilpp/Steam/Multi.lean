import Utilpp.Steam.Client
import Mathlib.Data.List.Basic

/-!
# A Multi packet and its parts

What the handler does with a `Multi` packet, compared with what it does with the packets inside, one
after another. The two differ by the fall-through to `ClientServerUnavailable`, and a `Multi` packet
inside makes the first undefined. `multi_eq_parts_iff` says when neither matters.
-/

namespace Utilpp.Steam

open Lib

variable {CMsgProtoBufHeader Rest : Type}

/-- The body of a `Multi` packet: every packet behind its length. -/
def packed (packets : List (List UInt8)) : List UInt8 :=
  packets.flatMap fun packet => toBytes 4 packet.length ++ packet

theorem packed_cons (packet : List UInt8) (packets : List (List UInt8)) :
    packed (packet :: packets) = toBytes 4 packet.length ++ (packet ++ packed packets) := by
  rw [packed, List.flatMap_cons, List.append_assoc]
  rfl

/-- What is left behind the last packet: nothing, or a length that says more than there is. -/
def Cut (tail : List UInt8) : Prop :=
  tail = [] ∨ 4 ≤ tail.length ∧ (tail.length : Int) < 4 + int32 (ofBytes (tail.take 4))

namespace Environment

/-- The loop stops at what is left. -/
theorem walk_cut (handle : SteamClient Rest → List UInt8 → Option (SteamClient Rest))
    {tail : List UInt8} (hcut : Cut tail) {fuel : Nat} (hfuel : tail.length ≤ fuel)
    (client : SteamClient Rest) : walk handle fuel client tail = some client := by
  rcases hcut with rfl | ⟨hfour, hlong⟩
  · cases fuel with
    | zero => rfl
    | succ fuel => rfl
  · obtain ⟨fuel, rfl⟩ : ∃ n, fuel = n + 1 := ⟨fuel - 1, by omega⟩
    rw [walk, if_neg (List.ne_nil_of_length_pos (by omega)), if_neg (by omega)]
    dsimp only
    rw [if_pos (by rw [List.length_drop]; omega)]

/-- The loop over packets handles them one after another. -/
theorem walk_packed_append
    (handle : SteamClient Rest → List UInt8 → Option (SteamClient Rest))
    {packets : List (List UInt8)} (hlength : ∀ packet ∈ packets, packet.length < 2 ^ 31)
    {tail : List UInt8} (hcut : Cut tail) {fuel : Nat}
    (hfuel : (packed packets ++ tail).length ≤ fuel) (client : SteamClient Rest) :
    walk handle fuel client (packed packets ++ tail) = packets.foldlM handle client := by
  induction packets generalizing fuel client with
  | nil => exact walk_cut handle hcut hfuel client
  | cons packet packets ih =>
      have hpacket : packet.length < 2 ^ 31 := hlength packet List.mem_cons_self
      have hfour : (toBytes 4 packet.length).length = 4 := length_toBytes 4 _
      rw [packed_cons, List.append_assoc, List.append_assoc] at hfuel ⊢
      rw [List.length_append, hfour] at hfuel
      obtain ⟨fuel, rfl⟩ : ∃ n, fuel = n + 1 := ⟨fuel - 1, by omega⟩
      have hread : int32 (ofBytes (toBytes 4 packet.length)) = packet.length := by
        rw [ofBytes_toBytes (by omega)]
        exact Int.bmod_eq_of_le (by omega) (by omega)
      have htake : (toBytes 4 packet.length ++ (packet ++ (packed packets ++ tail))).take 4 =
          toBytes 4 packet.length := List.take_left' hfour
      have hdrop : (toBytes 4 packet.length ++ (packet ++ (packed packets ++ tail))).drop 4 =
          packet ++ (packed packets ++ tail) := List.drop_left' hfour
      have hlong :
          4 ≤ (toBytes 4 packet.length ++ (packet ++ (packed packets ++ tail))).length := by
        rw [List.length_append, hfour]
        exact Nat.le_add_right 4 _
      rw [walk, if_neg (List.ne_nil_of_length_pos (by omega)), if_neg (by omega),
        htake, hdrop, hread, List.foldlM_cons]
      dsimp only
      rw [if_neg (by rw [List.length_append]; omega), if_neg (by omega), Int.toNat_natCast,
        List.take_left, List.drop_left]
      refine congrArg _ (funext fun client => ih (fun p hp => ?_) ?_ client)
      · exact hlength p (List.mem_cons_of_mem _ hp)
      · rw [List.length_append] at hfuel
        omega

/-- The loop over a body without a rest. -/
theorem walk_packed (handle : SteamClient Rest → List UInt8 → Option (SteamClient Rest))
    {packets : List (List UInt8)} (hlength : ∀ packet ∈ packets, packet.length < 2 ^ 31)
    {fuel : Nat} (hfuel : (packed packets).length ≤ fuel) (client : SteamClient Rest) :
    walk handle fuel client (packed packets) = packets.foldlM handle client := by
  have hwhole : (packed packets ++ []).length ≤ fuel := by
    rw [List.append_nil]
    exact hfuel
  have hwalk := walk_packed_append handle hlength (.inl rfl) hwhole client
  rwa [List.append_nil] at hwalk

variable (env : Environment CMsgProtoBufHeader Rest)

/-- The packets handled one after another. -/
def receiveAll (client : SteamClient Rest) (packets : List (List UInt8)) :
    Option (SteamClient Rest) :=
  packets.foldlM env.onWSDataReceived client

/-- A packet that was parsed to a `Multi` packet in protobuf form. -/
def ParsedMulti (parsed : Parsed CMsgProtoBufHeader) : Prop :=
  ∃ msg view, parsed = .parsed msg view ∧ msg.msgType = env.multi ∧ msg.bProtoBuf = true

/-- The packet is a `Multi` packet in protobuf form. -/
def IsMulti (content : List UInt8) : Prop :=
  env.ParsedMulti (parse env.emsg env.protoBuf content (int32 content.length))

variable {env}

/-- Only for `Multi` packets it matters how these are handled. -/
theorem receive_congr {content : List UInt8} {len : Int}
    (h : ¬ env.ParsedMulti (parse env.emsg env.protoBuf content len))
    (first second : Option (List UInt8) → SteamClient Rest → Option (SteamClient Rest))
    (client : SteamClient Rest) :
    env.receive first client content len = env.receive second client content len := by
  rw [receive, receive]
  split
  · rfl
  · rfl
  · next msg view hparse =>
    split
    · next hmulti =>
      split
      · rfl
      · next hproto => exact absurd ⟨msg, view, hparse, hmulti, by simpa using hproto⟩ h
    · rfl

theorem receive_parsedMulti {content : List UInt8} {len : Int}
    {msg : PacketMsg CMsgProtoBufHeader} {view : View}
    (hparse : parse env.emsg env.protoBuf content len = .parsed msg view)
    (hmulti : msg.msgType = env.multi) (hproto : msg.bProtoBuf = true)
    (onMulti : Option (List UInt8) → SteamClient Rest → Option (SteamClient Rest))
    (client : SteamClient Rest) :
    env.receive onMulti client content len = onMulti (view.bytes content) client := by
  simp [receive, hparse, hmulti, hproto]

/-- Inside a `Multi` packet any other packet is handled as it is outside. -/
theorem receiveInside_eq {content : List UInt8} (h : ¬ env.IsMulti content)
    (client : SteamClient Rest) :
    env.receiveInside client content = env.onWSDataReceived client content :=
  receive_congr h _ _ client

theorem receiveInside_isMulti {content : List UInt8} (h : env.IsMulti content)
    (client : SteamClient Rest) : env.receiveInside client content = none := by
  obtain ⟨msg, view, hparse, hmulti, hproto⟩ := h
  exact receive_parsedMulti hparse hmulti hproto _ client

/-- When the loop gets through, no packet inside was a `Multi` packet. -/
theorem not_isMulti_of_inside {packets : List (List UInt8)} {client final : SteamClient Rest}
    (h : packets.foldlM env.receiveInside client = some final) :
    ∀ packet ∈ packets, ¬ env.IsMulti packet := by
  induction packets generalizing client with
  | nil => exact nofun
  | cons packet packets ih =>
      rw [List.foldlM_cons, Option.bind_eq_bind, Option.bind_eq_some_iff] at h
      obtain ⟨client', hfirst, hrest⟩ := h
      refine List.forall_mem_cons.mpr ⟨fun hmulti => ?_, ih hrest⟩
      rw [receiveInside_isMulti hmulti] at hfirst
      exact nomatch hfirst

theorem inside_eq_receiveAll {packets : List (List UInt8)}
    (h : ∀ packet ∈ packets, ¬ env.IsMulti packet) (client : SteamClient Rest) :
    packets.foldlM env.receiveInside client = env.receiveAll client packets := by
  induction packets generalizing client with
  | nil => rw [receiveAll, List.foldlM_nil, List.foldlM_nil]
  | cons packet packets ih =>
      simp only [receiveAll, List.foldlM_cons, receiveInside_eq (h packet List.mem_cons_self)]
      exact bind_congr fun client => ih (fun p hp => h p (List.mem_cons_of_mem _ hp)) client

/-- A `Multi` packet in protobuf form with an uncompressed body of the given packets. -/
structure PlainMulti (env : Environment CMsgProtoBufHeader Rest) (content : List UInt8)
    (packets : List (List UInt8)) : Prop where
  multi : ∃ msg view body msgMulti,
    parse env.emsg env.protoBuf content (int32 content.length) = .parsed msg view ∧
      msg.msgType = env.multi ∧ msg.bProtoBuf = true ∧ view.bytes content = some body ∧
      env.parseMulti body = some msgMulti ∧ msgMulti.sizeUnzipped = 0 ∧
      msgMulti.messageBody = packed packets
  lengths : ∀ packet ∈ packets, packet.length < 2 ^ 31

/-- The loop over the parts, followed by the fall-through. -/
theorem onWSDataReceived_plainMulti {content : List UInt8} {packets : List (List UInt8)}
    (h : PlainMulti env content packets) (client : SteamClient Rest) :
    env.onWSDataReceived client content =
      (packets.foldlM env.receiveInside client).map onServerUnavailable := by
  obtain ⟨msg, view, body, msgMulti, hparse, hmulti, hproto, hbody, hmsg, hplain, hpacked⟩ :=
    h.multi
  have hreceive : env.onWSDataReceived client content = env.onMulti (some body) client := by
    rw [← hbody]
    exact receive_parsedMulti hparse hmulti hproto _ client
  rw [hreceive, onMulti, Option.bind_some, hmsg]
  simp only [hplain, hpacked]
  rw [if_neg (by decide), onMessageBody, walk_packed _ h.lengths (Nat.le_refl _)]

end Environment

open Environment

variable {env : Environment CMsgProtoBufHeader Rest}

/-- A `Multi` packet with an uncompressed body leaves the client as its parts do, handled one after
another, exactly if none of the parts is a `Multi` packet itself and the parts leave the client
disconnected and about to reconnect. -/
theorem multi_eq_parts_iff {content : List UInt8} {packets : List (List UInt8)}
    (h : PlainMulti env content packets) (client : SteamClient Rest) :
    (∃ final, env.onWSDataReceived client content = some final ∧
        env.receiveAll client packets = some final) ↔
      (∀ packet ∈ packets, ¬ env.IsMulti packet) ∧
        ∃ final, env.receiveAll client packets = some final ∧
          final.logStatus = .notConnect ∧ final.shouldReconnect = true := by
  rw [onWSDataReceived_plainMulti h]
  constructor
  · rintro ⟨final, hmulti, hparts⟩
    obtain ⟨between, hinside, hfinal⟩ := Option.map_eq_some_iff.mp hmulti
    have hno := not_isMulti_of_inside hinside
    rw [inside_eq_receiveAll hno, hparts, Option.some.injEq] at hinside
    subst hinside
    refine ⟨hno, final, hparts, ?_, ?_⟩
    · rw [← hfinal]
      rfl
    · rw [← hfinal]
      rfl
  · rintro ⟨hno, final, hparts, hstatus, hreconnect⟩
    refine ⟨final, ?_, hparts⟩
    rw [inside_eq_receiveAll hno, hparts, Option.map_some, Option.some.injEq]
    rw [onServerUnavailable, SteamClient.reconnect, ← hstatus, ← hreconnect]

/-- Steam's numbers, messages without fields but for the body of `CMsgMulti`, and callbacks that do
nothing. -/
def plainEnvironment : Environment Unit Unit where
  emsg := ⟨1303, 1304, 1305⟩
  multi := 1
  clientServerUnavailable := 5500
  clientSessionToken := 850
  jobHeartbeat := 123
  destJobFailed := 113
  serviceMethodResponse := 147
  serviceMethod := 146
  clientLogOnResponse := 751
  clientLoggedOff := 757
  ok := 1
  tryAnotherCM := 48
  serviceUnavailable := 20
  protoBuf := ⟨fun _ => [], fun _ => some ()⟩
  jobidTarget _ := 0
  clientSessionid _ := 0
  steamid _ := 0
  parseMulti
    | 0x12 :: length :: body => if body.length = length.toNat then some ⟨0, body⟩ else none
    | [] => some ⟨0, []⟩
    | _ => none
  parseSessionToken _ := some 0
  parseLogonResponse _ := some ⟨2, 0, "", none, 0, 0⟩
  parseLoggedOff _ := some 2
  inflate _ _ := none
  jobFailed _ client := some client
  jobCompleted _ _ client := some client
  triggerOnLogoutDelegates client := some client
  invalidateAccountCache _ client := some client

/-- A client that is logged on. -/
def loggedOn : SteamClient Unit :=
  { logStatus := .logon, shouldReconnect := false, sessionToken := 0, steamID := 7, sessionID := 1
    cellID := 0, publicIP := .v4 0, ipCountryCode := "", heartBeatSec := 9, heartBeatSecCount := 0
    authSession := ⟨"", "", "", none, .other 4⟩, rest := () }

/-- A `ClientServerUnavailable` packet. -/
def unavailablePacket : List UInt8 := [0x7C, 0x15, 0, 0x80, 0, 0, 0, 0]

/-- A `Multi` packet with that packet inside. -/
def unavailableMulti : List UInt8 :=
  [1, 0, 0, 0x80, 0, 0, 0, 0, 0x12, 12, 8, 0, 0, 0] ++ unavailablePacket

/-- A `Multi` packet with an unavailable server inside means what is inside. -/
theorem unavailable_multi_eq_parts :
    PlainMulti plainEnvironment unavailableMulti [unavailablePacket] ∧
      ∃ final, plainEnvironment.onWSDataReceived loggedOn unavailableMulti = some final ∧
        plainEnvironment.receiveAll loggedOn [unavailablePacket] = some final := by
  have hplain : PlainMulti plainEnvironment unavailableMulti [unavailablePacket] :=
    ⟨⟨_, _, _, _, rfl, rfl, rfl, rfl, rfl, rfl, rfl⟩, by decide⟩
  refine ⟨hplain, (multi_eq_parts_iff hplain loggedOn).mpr ⟨?_, _, rfl, by decide, by decide⟩⟩
  refine List.forall_mem_singleton.mpr ?_
  rintro ⟨msg, view, hparse, hmulti, -⟩
  cases hparse
  exact absurd hmulti (by decide)

/-- A `Multi` packet with nothing inside disconnects a client that is logged on. -/
theorem empty_multi_disconnects :
    PlainMulti plainEnvironment [1, 0, 0, 0x80, 0, 0, 0, 0] [] ∧
      plainEnvironment.receiveAll loggedOn [] = some loggedOn ∧
      plainEnvironment.onWSDataReceived loggedOn [1, 0, 0, 0x80, 0, 0, 0, 0] =
        some { loggedOn with logStatus := .notConnect, shouldReconnect := true } ∧
      ({ loggedOn with logStatus := .notConnect, shouldReconnect := true } : SteamClient Unit) ≠
        loggedOn :=
  ⟨⟨⟨_, _, _, _, rfl, rfl, rfl, rfl, rfl, rfl, rfl⟩, nofun⟩, rfl, rfl, by decide⟩

end Utilpp.Steam
