import Utilpp.Message.Stream

/-!
# Unordered channels over datagrams

When every channel is unordered, the loop over the packets of a datagram pushes all of them for
every packet that it meets, and has moved them away by the second one. `unordered_delivered_iff`
says that a datagram is delivered as it should be exactly if it has at most one packet.
-/

namespace Utilpp.Message

open Lib

/-- Every channel is unordered. -/
def AllUnordered (policies : List EMessagePolicy) : Prop :=
  ∀ channel : Fin maxChannal, policies[channel.val]? = some .unordered

/-- A receiver of datagrams whose queues are empty. -/
structure Idle (policies : List EMessagePolicy) (p : Processer) : Prop where
  connectionType : p.connectionType = .udp
  channelsPolicy : p.channelsPolicy = policies
  empty : ∀ channel, p.messageQueues channel = []

/-- The packets of a datagram have been delivered: every channel got its packets in their order,
no packet waits, and the session is connected if it was. -/
structure Delivers (p : Processer) (packets : List MessagePacket) (q : Processer) : Prop where
  delivered : ∀ channel,
    q.delivered channel = p.delivered channel ++ packets.filter (·.channel = channel)
  empty : ∀ channel, q.messageQueues channel = []
  connected : .disconnect ∈ q.events ↔ .disconnect ∈ p.events

variable {policies : List EMessagePolicy} {p q : Processer}

/-- Unordered channels are drained like the channels of a stream. -/
theorem Processer.drainQueues_unordered (hpolicies : AllUnordered p.channelsPolicy)
    (channels : List (Fin maxChannal)) : p.drainQueues channels = .ok (p.flushQueues channels) := by
  induction channels generalizing p with
  | nil => rfl
  | cons channel rest ih =>
      rw [Processer.drainQueues, hpolicies channel, Processer.flushQueues]
      exact ih hpolicies

/-- The loop over the packets of a datagram ends well only for one packet, which is pushed to the
queue of its channel, or for none. -/
theorem Processer.queuePackets_unordered (hpolicies : AllUnordered p.channelsPolicy)
    {packets : List MessagePacket} (h : p.queuePackets packets packets = .ok q) :
    packets.length ≤ 1 ∧ p.pushPackets packets = .ok q := by
  cases packets with
  | nil => exact ⟨Nat.zero_le 1, h⟩
  | cons packet rest =>
      rw [Processer.queuePackets, Processer.queuePacket] at h
      by_cases hchannel : packet.channel < maxChannal
      · rw [dif_pos hchannel, hpolicies ⟨packet.channel, hchannel⟩] at h
        simp only [ne_eq, not_true_eq_false, if_false] at h
        cases hpush : p.pushPackets (packet :: rest) with
        | error stop =>
            rw [hpush] at h
            cases h
        | ok pushed =>
            rw [hpush] at h
            -- the packets that follow have been moved
            by_cases hrest : rest = []
            · subst hrest
              exact ⟨Nat.le_refl 1, h⟩
            · simp only [if_neg hrest] at h
              cases h
      · rw [dif_neg hchannel] at h
        cases h

/-- One packet is queued like a packet of a stream. -/
theorem Processer.queuePackets_single (hpolicies : AllUnordered p.channelsPolicy)
    {packets : List MessagePacket} (hsingle : packets.length ≤ 1)
    (hpush : p.pushPackets packets = .ok q) : p.queuePackets packets packets = .ok q := by
  match packets with
  | [] => exact hpush
  | [packet] =>
      rw [Processer.queuePackets, Processer.queuePacket]
      by_cases hchannel : packet.channel < maxChannal
      · rw [dif_pos hchannel, hpolicies ⟨packet.channel, hchannel⟩]
        simp only [ne_eq, not_true_eq_false, if_false, hpush, if_true]
        rfl
      · rw [Processer.pushPackets, dif_neg hchannel] at hpush
        cases hpush

/-- Pushing packets changes the queues only. -/
theorem Processer.pushPackets_frame {packets : List MessagePacket}
    (h : p.pushPackets packets = .ok q) :
    q.connectionType = p.connectionType ∧ q.channelsPolicy = p.channelsPolicy := by
  induction packets generalizing p with
  | nil =>
      cases h
      exact ⟨rfl, rfl⟩
  | cons packet rest ih =>
      rw [Processer.pushPackets] at h
      split at h
      · rename_i hchannel
        exact @ih (p.setQueue ⟨packet.channel, hchannel⟩ _) h
      · cases h

/-- A call of `OnRead` leaves the queues empty. -/
theorem Idle.step (hpolicies : AllUnordered policies) (h : Idle policies p) {call : ReadCall}
    (hstep : p.step call = some q) : Idle policies q := by
  have hread := eq_ok_of_toOption hstep
  rw [Processer.onRead, if_pos h.connectionType, Processer.onReadDatagram] at hread
  split at hread
  · cases hread
  · rename_i result hresult
    split at hread
    · cases hread
      exact ⟨h.connectionType, h.channelsPolicy, h.empty⟩
    · split at hread
      · cases hread
      · rename_i queued hqueue
        have hunordered : AllUnordered p.channelsPolicy := h.channelsPolicy ▸ hpolicies
        obtain ⟨-, hpush⟩ := Processer.queuePackets_unordered hunordered hqueue
        obtain ⟨htype, hpolicy⟩ := Processer.pushPackets_frame hpush
        rw [Processer.drainQueues_unordered (hpolicy ▸ hunordered),
          Processer.flushQueues_eq (List.nodup_finRange _)] at hread
        cases hread
        exact ⟨htype.trans h.connectionType, hpolicy.trans h.channelsPolicy, fun _ => by simp⟩

/-- The queues are empty in every state that a receiver reaches. -/
theorem idle_run (hpolicies : AllUnordered policies) {calls : List ReadCall}
    (hrun : exec Processer.step { connectionType := .udp, channelsPolicy := policies } calls =
      some p) : Idle policies p := by
  have hkeep : ∀ p (call : ReadCall) q, Idle policies p → True → p.step call = some q →
      Idle policies q :=
    fun _ _ _ h _ hstep => h.step hpolicies hstep
  exact exec_invariant hkeep ⟨rfl, rfl, fun _ => rfl⟩ (guarded_true _ _) hrun

/-- A receiver whose channels are all unordered delivers a datagram as it should exactly if the
datagram has at most one packet. -/
theorem unordered_delivered_iff (hpolicies : AllUnordered policies) {calls : List ReadCall}
    (hrun : exec Processer.step { connectionType := .udp, channelsPolicy := policies } calls =
      some p)
    {data : List UInt8} {packets : List MessagePacket} (hpackets : CompletePackets data packets)
    (hchannels : ∀ packet ∈ packets, packet.channel < maxChannal) (hlen : data.length < 2 ^ 32)
    (behind : List UInt8) :
    (∃ q, p.onRead ⟨data, behind⟩ = .ok q ∧ Delivers p packets q) ↔ packets.length ≤ 1 := by
  have hidle := idle_run hpolicies hrun
  have hunordered : AllUnordered p.channelsPolicy := hidle.channelsPolicy ▸ hpolicies
  simp only [Processer.onRead, hidle.connectionType, if_true, Processer.onReadDatagram,
    Nat.mod_eq_of_lt hlen, hpackets.tryConsume hlen behind, ne_eq, not_true_eq_false, if_false]
  constructor
  · rintro ⟨q, hread, -⟩
    split at hread
    · cases hread
    · rename_i queued hqueue
      exact (Processer.queuePackets_unordered hunordered hqueue).1
  · intro hsingle
    obtain ⟨queued, hpush, -, -, hempty, hconnected, hdelivered⟩ :=
      p.delivered_flush packets hidle.empty hchannels
    have hpolicy := (Processer.pushPackets_frame hpush).2
    rw [Processer.queuePackets_single hunordered hsingle hpush]
    exact ⟨_, Processer.drainQueues_unordered (hpolicy ▸ hunordered) _,
      ⟨hdelivered, hempty, hconnected⟩⟩

/-- Every channel is unordered. -/
def allUnordered : List EMessagePolicy := List.replicate maxChannal .unordered

theorem allUnordered_spec : AllUnordered allUnordered := by
  unfold AllUnordered allUnordered
  decide

/-- The packet with index 0 and no content. -/
def emptyPacket : List UInt8 := (buildPacket freshCounters [] channelZero).1

theorem emptyPacket_complete {data : List UInt8} {packets : List MessagePacket}
    (h : CompletePackets data packets) : CompletePackets (emptyPacket ++ data) ({} :: packets) := by
  obtain ⟨lines, body, header, hlines, hbody, hbytes, hpacket⟩ :=
    @buildPacket_packetOf freshCounters [] channelZero (by decide) (by decide)
  have hcons := CompletePackets.cons hlines hbody h
  rw [← hbytes, ← hpacket] at hcons
  exact hcons

/-- A single packet is delivered. -/
theorem single_packet_delivered : ∃ q,
    Processer.onRead { connectionType := .udp, channelsPolicy := allUnordered }
      ⟨emptyPacket ++ [], []⟩ = .ok q ∧
    Delivers { connectionType := .udp, channelsPolicy := allUnordered } [{}] q := by
  have hrun : exec Processer.step { connectionType := .udp, channelsPolicy := allUnordered } [] =
      some { connectionType := .udp, channelsPolicy := allUnordered } := rfl
  exact (unordered_delivered_iff allUnordered_spec hrun (emptyPacket_complete .nil) (by decide)
    (by decide) []).mpr (by decide)

/-- Two packets in one datagram: the second one is read through a null pointer. -/
theorem two_packets_not_delivered :
    CompletePackets (emptyPacket ++ (emptyPacket ++ [])) [{}, {}] ∧
      Processer.onRead { connectionType := .udp, channelsPolicy := allUnordered }
        ⟨emptyPacket ++ (emptyPacket ++ []), []⟩ = .error .nullDeref ∧
      ¬ ∃ q, Processer.onRead { connectionType := .udp, channelsPolicy := allUnordered }
          ⟨emptyPacket ++ (emptyPacket ++ []), []⟩ = .ok q ∧
        Delivers { connectionType := .udp, channelsPolicy := allUnordered } [{}, {}] q := by
  have hpackets := emptyPacket_complete (emptyPacket_complete .nil)
  have hparse := hpackets.tryConsume (by decide) []
  have hread : Processer.onRead { connectionType := .udp, channelsPolicy := allUnordered }
      ⟨emptyPacket ++ (emptyPacket ++ []), []⟩ = .error .nullDeref := by
    simp only [Processer.onRead, Processer.onReadDatagram]
    rw [Nat.mod_eq_of_lt (by decide), hparse]
    rfl
  refine ⟨hpackets, hread, ?_⟩
  rintro ⟨q, hq, -⟩
  rw [hread] at hq
  cases hq

end Utilpp.Message
