import Utilpp.Message.Stream

/-!
# Channel indices

A processer uses the channel number of a received packet and of a message to send as an index
into its vectors without comparing it with their sizes. `channels_in_range` says which bytes
and which calls keep every index in range. The constructor leaves `channelsPolicy` empty, so a
datagram that is parsed to its end always reads past it.
-/

namespace Utilpp.Message

open Lib

/-- A processer with the counters of its sending side. -/
structure Endpoint where
  processer : Processer
  sendChannels : Counters := fun _ => 0

/-- A call of `OnRead`, or of `SendContent` with or without a session. -/
inductive Call where
  | read (call : ReadCall)
  | send (session : Bool) (data : List UInt8) (channel : UInt8)

/-- `SendContent`: the counter of the channel is read and moved on. -/
def Endpoint.sendContent (e : Endpoint) (session : Bool) (data : List UInt8) (channel : UInt8) :
    Except Stop Endpoint :=
  if session then
    if h : channel.toNat < maxChannal then
      .ok { e with sendChannels := (buildPacket e.sendChannels data ⟨channel.toNat, h⟩).2 }
    else .error .badIndex
  else .ok e

/-- One call. -/
def Endpoint.call (e : Endpoint) : Call → Except Stop Endpoint
  | .read call => (e.processer.onRead call).map fun p => { e with processer := p }
  | .send session data channel => e.sendContent session data channel

/-- A call as a step of a run. -/
def Endpoint.step (e : Endpoint) (call : Call) : Option Endpoint := (e.call call).toOption

/-- A new endpoint. -/
def Endpoint.fresh (connectionType : EMessageConnectionType) : Endpoint :=
  { processer := { connectionType } }

/-- The part of a buffer that `TryConsume` is told of. -/
def visible (buf : List UInt8) : List UInt8 := buf.take (buf.length % 2 ^ 32)

/-- Every complete packet at the front of the buffer names one of the channels. -/
def ChannelsNamed (buf : List UInt8) : Prop :=
  ∀ bytes packets rest, buf = bytes ++ rest → CompletePackets bytes packets →
    ∀ packet ∈ packets, packet.channel < maxChannal

/-- The condition on a call: a message is sent on one of the channels; received bytes do not run
out of the buffer, and their complete packets name channels that exist. A datagram of complete
packets also needs a policy for every channel. -/
def Endpoint.InRange (e : Endpoint) : Call → Prop
  | .send session _ channel => session = true → channel.toNat < maxChannal
  | .read call =>
      if e.processer.connectionType = .udp then
        ¬ Escapes (visible call.data) ∧ ∀ packets, CompletePackets call.data packets →
          ChannelsNamed call.data ∧ maxChannal ≤ e.processer.channelsPolicy.length
      else
        ¬ Escapes (visible (e.processer.readBuf ++ call.data)) ∧
          ChannelsNamed (visible (e.processer.readBuf ++ call.data))

theorem visible_append (buf : List UInt8) : ∃ rest, buf = visible buf ++ rest ∧
    (visible buf).length = buf.length % 2 ^ 32 := by
  refine ⟨buf.drop (buf.length % 2 ^ 32), (List.take_append_drop _ _).symm, ?_⟩
  rw [visible, List.length_take]
  exact Nat.min_eq_left (Nat.mod_le _ _)

theorem visible_length_lt (buf : List UInt8) : (visible buf).length < 2 ^ 32 := by
  obtain ⟨rest, -, hlen⟩ := visible_append buf
  rw [hlen]
  exact Nat.mod_lt _ (by decide)

/-- `TryConsume` on a buffer and the memory behind it sees the visible part of the buffer. -/
theorem tryConsume_visible (buf behind : List UInt8) : ∃ tail,
    tryConsume (buf ++ behind) (buf.length % 2 ^ 32) =
      tryConsume (visible buf ++ tail) (visible buf).length := by
  obtain ⟨rest, hbuf, hlen⟩ := visible_append buf
  refine ⟨rest ++ behind, ?_⟩
  rw [← hlen, ← List.append_assoc, ← hbuf]

/-! ## Streams -/

/-- A stream whose packets name channels uses no index out of range. -/
theorem Processer.onReadStream_ne_badIndex {p : Processer} {data : List UInt8}
    (hescapes : ¬ Escapes (visible (p.readBuf ++ data)))
    (hnamed : ChannelsNamed (visible (p.readBuf ++ data))) (behind : List UInt8) :
    p.onReadStream data behind ≠ .error .badIndex := by
  obtain ⟨tail, htail⟩ := tryConsume_visible (p.readBuf ++ data) behind
  have hlen := visible_length_lt (p.readBuf ++ data)
  have hne := tryConsume_ne_badIndex hlen hescapes tail
  simp only [onReadStream, htail]
  cases hok : tryConsume (visible (p.readBuf ++ data) ++ tail)
      (visible (p.readBuf ++ data)).length with
  | error stop =>
      rw [hok] at hne
      simpa using hne
  | ok result =>
      obtain ⟨bytes, rest, hbuf, hpackets, -⟩ := exists_packets_of_ok hlen hescapes hok
      have hchannels := hnamed bytes result.messagePackets rest hbuf hpackets
      simp only
      split
      · simp
      split
      · simp
      · rw [Processer.pushPackets_eq hchannels]
        simp

/-! ## Datagrams -/

theorem insertReverse_ne_badIndex {packet : MessagePacket} {queue after : List MessagePacket} :
    insertReverse packet queue after ≠ .error .badIndex := by
  induction queue generalizing after with
  | nil => simp [insertReverse]
  | cons last front ih =>
      rw [insertReverse]
      split
      · simp
      split
      · cases after with
        | nil => simp [insertBehind]
        | cons next behind => simp [insertBehind]
      · exact ih

theorem Processer.queueOrdered_ne_badIndex {p : Processer} {packet : MessagePacket}
    {channel : Fin maxChannal} :
    p.queueOrdered packet channel ≠ .error .badIndex ∧
      ∀ q, p.queueOrdered packet channel = .ok q → q.channelsPolicy = p.channelsPolicy := by
  have hwindow : (if outOfWindow packet.index (p.recvChannels channel) then p.disconnect
      else p).channelsPolicy = p.channelsPolicy := by
    split <;> rfl
  simp only [queueOrdered]
  split
  · rename_i stop hinsert
    refine ⟨fun h => ?_, fun q hq => by cases hq⟩
    cases h
    exact insertReverse_ne_badIndex hinsert
  · refine ⟨by simp, fun q hq => ?_⟩
    cases hq
    exact hwindow

/-- The packet loop on packets that name channels, with a policy for every channel. -/
theorem Processer.queuePackets_ne_badIndex {p : Processer} {all packets : List MessagePacket}
    (hpolicies : maxChannal ≤ p.channelsPolicy.length)
    (hall : ∀ packet ∈ all, packet.channel < maxChannal)
    (hchannels : ∀ packet ∈ packets, packet.channel < maxChannal) :
    p.queuePackets all packets ≠ .error .badIndex ∧
      ∀ q, p.queuePackets all packets = .ok q → q.channelsPolicy = p.channelsPolicy := by
  induction packets generalizing p with
  | nil =>
      refine ⟨by simp [queuePackets], fun q hq => ?_⟩
      cases hq
      rfl
  | cons packet rest ih =>
      have hchannel := hchannels packet (by simp)
      have hpolicy : packet.channel < p.channelsPolicy.length := by omega
      have hone : p.queuePacket all packet rest ≠ .error .badIndex ∧
          ∀ q, p.queuePacket all packet rest = .ok q → q.channelsPolicy = p.channelsPolicy := by
        simp only [queuePacket, dif_pos hchannel, List.getElem?_eq_getElem hpolicy]
        split
        · exact Processer.queueOrdered_ne_badIndex
        · rw [Processer.pushPackets_eq hall]
          simp only
          split
          · exact ⟨by simp, fun q hq => by cases hq; rfl⟩
          · exact ⟨by simp, fun q hq => by cases hq⟩
      simp only [queuePackets]
      cases hq : p.queuePacket all packet rest with
      | error stop =>
          rw [hq] at hone
          exact ⟨by simpa using hone.1, fun q hq' => by cases hq'⟩
      | ok q =>
          have hsame := hone.2 q hq
          obtain ⟨hne, hkeep⟩ := @ih q (by rw [hsame]; exact hpolicies)
            fun found hfound => hchannels found (by simp [hfound])
          exact ⟨hne, fun r hr => (hkeep r hr).trans hsame⟩

/-- The delivery loop with a policy for every channel. -/
theorem Processer.drainQueues_ne_badIndex {p : Processer} {channels : List (Fin maxChannal)}
    (hpolicies : maxChannal ≤ p.channelsPolicy.length) :
    p.drainQueues channels ≠ .error .badIndex := by
  induction channels generalizing p with
  | nil => simp [drainQueues]
  | cons channel rest ih =>
      have hpolicy : channel.val < p.channelsPolicy.length := by omega
      simp only [drainQueues, List.getElem?_eq_getElem hpolicy]
      split
      · exact ih hpolicies
      · exact ih hpolicies

/-- A datagram whose packets name channels uses no index out of range if there is a policy for
every channel; neither does a datagram that is not parsed to its end. -/
theorem Processer.onReadDatagram_ne_badIndex {p : Processer} {data : List UInt8}
    (hescapes : ¬ Escapes (visible data))
    (hnamed : ∀ packets, CompletePackets data packets →
      ChannelsNamed data ∧ maxChannal ≤ p.channelsPolicy.length) (behind : List UInt8) :
    p.onReadDatagram data behind ≠ .error .badIndex := by
  obtain ⟨tail, htail⟩ := tryConsume_visible data behind
  have hlen := visible_length_lt data
  have hne := tryConsume_ne_badIndex hlen hescapes tail
  simp only [onReadDatagram, htail]
  cases hok : tryConsume (visible data ++ tail) (visible data).length with
  | error stop =>
      rw [hok] at hne
      simpa using hne
  | ok result =>
      obtain ⟨bytes, rest, hbuf, hpackets, hconsumed⟩ := exists_packets_of_ok hlen hescapes hok
      simp only
      split
      · simp
      rename_i hall
      -- Everything was consumed, so the datagram is the complete packets and nothing else.
      have hdata : bytes = data := by
        obtain ⟨unseen, hsplit, -⟩ := visible_append data
        have hlength : bytes.length = data.length := by
          rw [← hconsumed]
          exact Decidable.not_not.mp hall
        rw [hbuf, List.append_assoc] at hsplit
        have hnil : rest ++ unseen = [] := by
          rw [← List.length_eq_zero_iff]
          have htotal := congrArg List.length hsplit
          rw [List.length_append] at htotal
          omega
        rw [hnil, List.append_nil] at hsplit
        exact hsplit.symm
      subst hdata
      obtain ⟨hchannels, hpolicies⟩ := hnamed _ hpackets
      have hmem := hchannels bytes result.messagePackets [] (by simp) hpackets
      obtain ⟨hqueue, hkeep⟩ := queuePackets_ne_badIndex hpolicies hmem hmem
      cases hq : p.queuePackets result.messagePackets result.messagePackets with
      | error stop =>
          rw [hq] at hqueue
          simpa using hqueue
      | ok q =>
          simp only
          exact drainQueues_ne_badIndex (by rw [hkeep q hq]; exact hpolicies)

/-! ## Runs -/

/-- A call that meets the condition uses no index out of range. -/
theorem Endpoint.call_ne_badIndex {e : Endpoint} {call : Call} (h : e.InRange call) :
    e.call call ≠ .error .badIndex := by
  cases call with
  | send session data channel =>
      cases session with
      | false => simp [Endpoint.call, sendContent]
      | true => simp [Endpoint.call, sendContent, h rfl]
  | read call =>
      have honRead : e.processer.onRead call ≠ .error .badIndex := by
        simp only [InRange] at h
        unfold Processer.onRead
        split at h
        · rename_i hudp
          rw [if_pos hudp]
          exact Processer.onReadDatagram_ne_badIndex h.1 h.2 call.behind
        · rename_i hstream
          rw [if_neg hstream]
          exact Processer.onReadStream_ne_badIndex h.1 h.2 call.behind
      simp only [Endpoint.call]
      cases hread : e.processer.onRead call with
      | error stop =>
          rw [hread] at honRead
          simpa [Except.map] using honRead
      | ok p => simp [Except.map]

/-- In every run whose calls all meet the condition, no call uses an index out of range. -/
theorem channels_in_range {connectionType : EMessageConnectionType} {calls : List Call}
    {call : Call} {e : Endpoint}
    (hcalls : Guarded Endpoint.step Endpoint.InRange (.fresh connectionType) (calls ++ [call]))
    (hrun : exec Endpoint.step (.fresh connectionType) calls = some e) :
    e.call call ≠ .error .badIndex := by
  obtain ⟨-, hlast⟩ := hcalls.of_append hrun
  exact Endpoint.call_ne_badIndex hlast.1

theorem channelsNamed_nil : ChannelsNamed [] := by
  intro bytes packets rest hsplit hpackets packet hpacket
  obtain ⟨rfl, -⟩ := List.append_eq_nil_iff.mp hsplit.symm
  cases hpackets with
  | nil => cases hpacket

/-- A message on the last channel, and then a call of `OnRead` without bytes. -/
theorem last_channel_in_range :
    (Endpoint.step (.fresh .tcp) (.send true [1] 15)).isSome ∧
      ∀ e, Endpoint.step (.fresh .tcp) (.send true [1] 15) = some e →
        e.call (.read ⟨[], [0]⟩) ≠ .error .badIndex := by
  refine ⟨rfl, fun e he => ?_⟩
  have hescapes : ¬ Escapes [] := by
    intro hescapes
    have hbad := (tryConsume_of_escapes (by decide) hescapes).1
    cases hbad
  refine @channels_in_range .tcp [.send true [1] 15] _ e ?_ (exec_cons_eq_some.mpr ⟨e, he, rfl⟩)
  refine ⟨fun _ => by decide, fun t ht => ⟨?_, fun _ _ => trivial⟩⟩
  cases ht
  exact ⟨hescapes, channelsNamed_nil⟩

/-- A packet without content for channel 16. -/
def channelSixteen : List UInt8 :=
  startLine ++ lineBytes messageHeaderChannel (decimal 16) ++ messageEnd

/-- A received packet of channel 16, an empty datagram and a message for channel 16 each use an
index past the end of a vector. -/
theorem channel_sixteen_out_of_range :
    (Endpoint.fresh .tcp).call (.read ⟨channelSixteen, [0]⟩) = .error .badIndex ∧
      (Endpoint.fresh .udp).call (.read ⟨[], [0]⟩) = .error .badIndex ∧
      (Endpoint.fresh .tcp).call (.send true [] 16) = .error .badIndex :=
  ⟨rfl, rfl, rfl⟩

end Utilpp.Message
