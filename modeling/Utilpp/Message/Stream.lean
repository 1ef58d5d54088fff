import Utilpp.Message.Bounded
import Utilpp.Message.Build
import Utilpp.Message.Processer
import Mathlib.Data.List.FinRange

/-!
# Stream reassembly

Whatever way a stream of built packets is cut into chunks, the stream branch of `OnRead`
delivers each packet once it is complete and keeps the bytes behind the last complete packet.
`stream_reassembled` says so for every run in which `readBuf` stays below `2 ^ 32` bytes;
`full_buffer_not_reassembled` is a stream that the conversion of `readBuf.size()` to
`uint32_t` breaks.
-/

namespace Utilpp.Message

open Lib

/-! ## Packets that are cut off -/

/-- Two byte strings with a common continuation, one of them a proper part of the other. -/
theorem prefix_append_cases {bytes first second : List UInt8} (h : bytes <+: first ++ second) :
    (bytes <+: first ∧ bytes.length < first.length) ∨
      ∃ rest, bytes = first ++ rest ∧ rest <+: second := by
  rcases Nat.lt_or_ge bytes.length first.length with hlt | hge
  · exact .inl ⟨List.prefix_of_prefix_length_le h (List.prefix_append _ _) hlt.le, hlt⟩
  · obtain ⟨rest, rfl⟩ := List.prefix_of_prefix_length_le (List.prefix_append first second) h hge
    exact .inr ⟨rest, rfl, (List.prefix_append_right_inj first).mp h⟩

/-- A header line that is cut off contains no line end. -/
theorem Splits.strstr_part {key value part : List UInt8} (hline : Splits key value)
    (hpart : part <+: lineBytes key value) (hlen : part.length < (lineBytes key value).length) :
    strstr messageEnd part = .unmapped := by
  have hbytes : lineBytes key value = key ++ messageHeaderSeparator ++ value ++ messageEnd := by
    simp [lineBytes, addHeader]
  have hzero : (0 : UInt8) ∉ part := by
    intro h0
    have hmem := hpart.subset h0
    rw [hbytes] at hmem
    rcases List.mem_append.mp hmem with hmem | hmem
    · exact hline.noNul hmem
    · exact absurd hmem (by decide)
  have hfull : strstr messageEnd (lineBytes key value) =
      .found (key ++ messageHeaderSeparator ++ value).length := by
    rw [hbytes, ← List.append_nil (_ ++ messageEnd)]
    exact strstr_found [] (by decide) (by decide) hline.noNul hline.noEnd
  by_contra hmapped
  obtain ⟨rest, hrest⟩ := hpart
  -- A line end in the part would be the line end of the line, which ends behind the part.
  have hsame := strstr_append (by decide) hmapped rest
  rw [hrest, hfull] at hsame
  obtain ⟨line, behind, hsplit, hn, -, -⟩ := strstr_split (by decide) hsame.symm
  have hlong : line.length + messageEnd.length ≤ part.length := by
    rw [hsplit]
    simp only [List.length_append]
    omega
  rw [hbytes, List.length_append] at hlen
  omega

/-- Header lines that are cut off leave a rest without line end behind complete lines, or they
leave the empty line and a part of the body. -/
theorem HeaderLines.part {packet last : MessagePacket} {lines body part : List UInt8}
    (hlines : HeaderLines packet lines last) (hpart : part <+: lines ++ (messageEnd ++ body)) :
    (∃ done header rest, part = done ++ rest ∧ HeaderLines packet done header ∧
        strstr messageEnd rest = .unmapped) ∨
      ∃ content, part = lines ++ (messageEnd ++ content) ∧ content <+: body := by
  induction hlines generalizing part with
  | nil packet =>
      rw [List.nil_append] at hpart
      rcases prefix_append_cases hpart with ⟨hshort, hlen⟩ | ⟨content, rfl, hcontent⟩
      · left
        refine ⟨[], packet, part, rfl, .nil packet, strstr_short (fun h0 => ?_) hlen⟩
        exact absurd (hshort.subset h0) (by decide)
      · exact .inr ⟨content, rfl, hcontent⟩
  | @cons packet stored last key value rest hline hstore hrest ih =>
      rw [List.append_assoc] at hpart
      rcases prefix_append_cases hpart with ⟨hshort, hlen⟩ | ⟨more, rfl, hmore⟩
      · exact .inl ⟨[], packet, part, rfl, .nil packet, hline.strstr_part hshort hlen⟩
      · rcases ih hmore with ⟨done, header, final, rfl, hdone, hfinal⟩ | ⟨content, rfl, hcontent⟩
        · exact .inl ⟨lineBytes key value ++ done, header, final, by simp,
            .cons hline hstore hdone, hfinal⟩
        · exact .inr ⟨content, by simp, hcontent⟩

/-- A start line that is cut off is left alone. -/
theorem consumeLoop_startLine_part {part : List UInt8} (hpart : part <+: startLine)
    (hlen : part.length < startLine.length) {fuel : Nat} (hfuel : part.length < fuel)
    (result : ConsumeResult) (tail : List UInt8) :
    ∃ stopped, consumeLoop fuel result (Cursor.within part tail) = .ok (result, stopped) := by
  obtain ⟨more, rfl⟩ := Nat.exists_eq_add_of_lt hfuel
  rw [consumeLoop, Cursor.within_leftlen]
  by_cases hempty : part.length = 0
  · exact ⟨_, if_pos hempty⟩
  rw [if_neg hempty]
  rcases prefix_append_cases hpart with ⟨-, hshort⟩ | ⟨rest, rfl, hrest⟩
  · exact ⟨_, by rw [consumeString_short tail hshort]⟩
  · have hshort : rest.length < messageEnd.length := by
      rw [startLine, List.length_append, List.length_append] at hlen
      omega
    have hbound : (messageBegin ++ rest).length < 2 ^ 32 := Nat.lt_trans hlen (by decide)
    refine ⟨Cursor.within rest tail, ?_⟩
    rw [consumeString_taken tail hbound]
    simp only [consumeString_short tail hshort]

/-- A packet that is cut off is left alone when a NUL follows. -/
theorem consumeLoop_part {bytes part : List UInt8} {packet : MessagePacket}
    (hpacket : PacketOf bytes packet) (hpart : part <+: bytes) (hlen : part.length < bytes.length)
    (hbound : part.length < 2 ^ 32) {fuel : Nat} (hfuel : part.length < fuel)
    (result : ConsumeResult) (rest : List UInt8) :
    ∃ stopped, consumeLoop fuel result (Cursor.within part (0 :: rest)) =
      .ok (result, stopped) := by
  obtain ⟨lines, body, header, hlines, hbody, rfl, rfl⟩ := hpacket
  rcases prefix_append_cases hpart with ⟨hstart, hshort⟩ | ⟨headers, rfl, hheaders⟩
  · exact consumeLoop_startLine_part hstart hshort hfuel result _
  rcases hlines.part hheaders with
    ⟨done, stored, open', rfl, hdone, hnone⟩ | ⟨content, rfl, hcontent⟩
  · obtain ⟨more, left, hrun⟩ := hdone.consumeLoop hbound hfuel result (0 :: rest)
    have hend : ¬ messageEnd <+: open' := fun hpre =>
      ((strstr_eq_unmapped (by decide)).mp hnone).2 hpre.isInfix
    have hfind : findHeader (Cursor.within open' (0 :: rest)) = .ok .incomplete := by
      rw [findHeader, Cursor.within_ptr, strstr_absent rest (by decide) hnone]
    refine ⟨Cursor.within open' (0 :: rest), ?_⟩
    rw [hrun, readHeaders_findHeader _ left stored hend, hfind]
    rfl
  · obtain ⟨more, left, hrun⟩ := hlines.consumeLoop hbound hfuel result (0 :: rest)
    have hcut : content.length < header.contentLength := by
      rw [← hbody]
      simp only [packetBytes, List.length_append] at hlen
      omega
    have hread : (messageEnd ++ content).length < 2 ^ 32 := by
      simp only [List.length_append] at hbound ⊢
      omega
    refine ⟨Cursor.within content (0 :: rest), ?_⟩
    rw [hrun, readHeaders, consumeString_taken _ hread]
    simp only [afterHeaders, readContent_short _ hcut]

/-! ## Parsing a received part of the stream -/

/-- How many packets lie completely in the first `length` bytes of their concatenation. -/
def completeCount : List (List UInt8) → Nat → Nat
  | [], _ => 0
  | packet :: rest, length =>
      if packet.length ≤ length then completeCount rest (length - packet.length) + 1 else 0

/-- A received part of the stream is its complete packets and a proper part of the next one. -/
theorem completeCount_split {packets : List (List UInt8)} {bytes : List UInt8}
    (h : bytes <+: packets.flatten) :
    ∃ rest, bytes = (packets.take (completeCount packets bytes.length)).flatten ++ rest ∧
      (rest = [] ∨ ∃ packet ∈ packets, rest <+: packet ∧ rest.length < packet.length) := by
  induction packets generalizing bytes with
  | nil => exact ⟨[], by simpa using h, .inl rfl⟩
  | cons packet packets ih =>
      rw [List.flatten_cons] at h
      rcases prefix_append_cases h with ⟨hpart, hlen⟩ | ⟨more, rfl, hmore⟩
      · refine ⟨bytes, ?_, .inr ⟨packet, by simp, hpart, hlen⟩⟩
        rw [completeCount, if_neg (by omega)]
        simp
      · obtain ⟨rest, hsplit, hrest⟩ := ih hmore
        refine ⟨rest, ?_, ?_⟩
        · rw [completeCount, if_pos (by simp), List.length_append, Nat.add_sub_cancel_left,
            List.take_succ_cons, List.flatten_cons, List.append_assoc, ← hsplit]
        · exact hrest.imp_right fun ⟨found, hfound, hpart⟩ => ⟨found, by simp [hfound], hpart⟩

/-- Counting goes on behind the packets that are already complete. -/
theorem completeCount_add (packets : List (List UInt8)) (length more : Nat) :
    completeCount packets (length + more) = completeCount packets length +
      completeCount (packets.drop (completeCount packets length))
        (length - (packets.take (completeCount packets length)).flatten.length + more) := by
  induction packets generalizing length with
  | nil => simp [completeCount]
  | cons packet packets ih =>
      rcases Nat.lt_or_ge length packet.length with hlt | hge
      · rw [completeCount.eq_2 length, if_neg (by omega)]
        simp
      · have hcount : completeCount (packet :: packets) length =
            completeCount packets (length - packet.length) + 1 := by
          rw [completeCount, if_pos hge]
        rw [hcount, completeCount, if_pos (by omega), List.drop_succ_cons, List.take_succ_cons,
          List.flatten_cons, List.length_append,
          show length + more - packet.length = length - packet.length + more by omega, ih,
          Nat.sub_add_eq]
        omega

/-- No packet is complete before its first byte. -/
theorem completeCount_zero {packets : List (List UInt8)} (h : ∀ packet ∈ packets, packet ≠ []) :
    completeCount packets 0 = 0 := by
  cases packets with
  | nil => rfl
  | cons packet rest =>
      have hpositive : 0 < packet.length := List.length_pos_iff.mpr (h packet (by simp))
      rw [completeCount, if_neg (by omega)]

/-- Complete packets one after the other. -/
theorem completePackets_flatten {packets : List (List UInt8)} {sent : List MessagePacket}
    (h : List.Forall₂ PacketOf packets sent) : CompletePackets packets.flatten sent := by
  induction h with
  | nil => exact .nil
  | cons hpacket _ ih =>
      obtain ⟨lines, body, header, hlines, hbody, rfl, rfl⟩ := hpacket
      exact .cons hlines hbody ih

theorem exists_packetOf {packets : List (List UInt8)} {sent : List MessagePacket}
    (h : List.Forall₂ PacketOf packets sent) {bytes : List UInt8} (hbytes : bytes ∈ packets) :
    ∃ packet, PacketOf bytes packet := by
  induction h with
  | nil => cases hbytes
  | @cons first packet _ _ hpacket _ ih =>
      rcases List.mem_cons.mp hbytes with rfl | htail
      · exact ⟨packet, hpacket⟩
      · exact ih htail

/-- `TryConsume` on a received part of the stream returns the packets complete in it. -/
theorem tryConsume_stream {packets : List (List UInt8)} {sent : List MessagePacket}
    (h : List.Forall₂ PacketOf packets sent) {bytes : List UInt8}
    (hbytes : bytes <+: packets.flatten) (hlen : bytes.length < 2 ^ 32) (rest : List UInt8) :
    tryConsume (bytes ++ 0 :: rest) bytes.length =
      .ok { consumptionLength :=
              (packets.take (completeCount packets bytes.length)).flatten.length
            messagePackets := sent.take (completeCount packets bytes.length) } := by
  obtain ⟨part, hsplit, hpart⟩ := completeCount_split hbytes
  generalize completeCount packets bytes.length = n at hsplit
  have hcomplete := completePackets_flatten (List.forall₂_take n h)
  subst hsplit
  have hfuel : ((packets.take n).flatten ++ part).length < loopBound :=
    Nat.lt_trans hlen (by decide)
  have hstart : (ConsumeResult.consumptionLength {}) +
      ((packets.take n).flatten ++ part).length < 2 ^ 32 := by simpa using hlen
  obtain ⟨more, hmore, hrun⟩ := hcomplete.advance (0 :: rest) hstart hfuel
  have hstop : ∃ stopped, consumeLoop more
      (ConsumeResult.push {} (packets.take n).flatten.length (sent.take n))
      (Cursor.within part (0 :: rest)) =
      .ok (ConsumeResult.push {} (packets.take n).flatten.length (sent.take n), stopped) := by
    rcases hpart with rfl | ⟨packet, hmem, hpre, hshort⟩
    · exact consumeLoop_startLine_part (List.nil_prefix) (by decide) hmore _ _
    · obtain ⟨found, hfound⟩ := exists_packetOf h hmem
      have hbound : part.length < 2 ^ 32 := by
        rw [List.length_append] at hlen
        omega
      exact consumeLoop_part hfound hpre hshort hbound hmore _ _
  obtain ⟨stopped, hstopped⟩ := hstop
  rw [tryConsume, consume_eq, hrun, hstopped]
  simp [ConsumeResult.push]

/-! ## The queues of the stream branch -/

variable {p : Processer} {packets : List MessagePacket}

/-- Pushing packets appends to every queue the packets of its channel. -/
theorem Processer.pushPackets_eq (h : ∀ packet ∈ packets, packet.channel < maxChannal) :
    p.pushPackets packets = .ok { p with
      messageQueues := fun channel =>
        p.messageQueues channel ++ packets.filter (·.channel = channel.val) } := by
  induction packets generalizing p with
  | nil => simp [Processer.pushPackets]
  | cons packet rest ih =>
      have hchannel : packet.channel < maxChannal := h packet (by simp)
      have hrest : ∀ found ∈ rest, found.channel < maxChannal := fun found hfound =>
        h found (by simp [hfound])
      rw [Processer.pushPackets, dif_pos hchannel]
      simp only [ih hrest, Processer.setQueue, Except.ok.injEq, Processer.mk.injEq, true_and,
        and_true]
      funext channel
      by_cases heq : channel = ⟨packet.channel, hchannel⟩
      · subst heq
        simp
      · have hne : packet.channel ≠ channel.val := fun hval => heq (Fin.ext hval.symm)
        simp [Function.update_of_ne heq, hne]

/-- Flushing triggers the queues one after the other and leaves them empty. -/
theorem Processer.flushQueues_eq {channels : List (Fin maxChannal)} (h : channels.Nodup) :
    p.flushQueues channels = { p with
      messageQueues := fun channel => if channel ∈ channels then [] else p.messageQueues channel
      events := p.events ++
        channels.flatMap fun channel => (p.messageQueues channel).map .onPacketRecv } := by
  induction channels generalizing p with
  | nil => simp [Processer.flushQueues]
  | cons channel rest ih =>
      obtain ⟨hchannel, hrest⟩ := List.nodup_cons.mp h
      have hsame : ∀ other ∈ rest, Function.update p.messageQueues channel [] other =
          p.messageQueues other := by
        intro other hother
        have hne : other ≠ channel := by
          rintro rfl
          exact hchannel hother
        exact Function.update_of_ne hne _ _
      rw [Processer.flushQueues, ih hrest]
      simp only [Processer.setQueue, Processer.trigger, Processer.mk.injEq, true_and]
      constructor
      · funext other
        by_cases hother : other = channel
        · simp [hother]
        · simp [hother]
      · rw [List.flatMap_cons, List.append_assoc]
        congr 2
        exact List.flatMap_congr fun other hother => by rw [hsame other hother]

/-- The packets of one channel among the events of a queue. -/
theorem filterMap_onChannel (packets : List MessagePacket) (channel k : Nat) :
    ((packets.filter (·.channel = channel)).map Event.onPacketRecv).filterMap (Event.onChannel k) =
      if channel = k then packets.filter (·.channel = k) else [] := by
  induction packets with
  | nil => simp
  | cons packet rest ih =>
      by_cases hpacket : packet.channel = channel
      · by_cases hk : channel = k
        · subst hk hpacket
          simpa [Event.onChannel] using ih
        · simpa [hpacket, Event.onChannel, hk] using ih
      · by_cases hk : channel = k
        · subst hk
          simpa [hpacket] using ih
        · simpa [hpacket, hk] using ih

/-- The packets of one channel among the events of the queues of several channels. -/
theorem filterMap_flatMap_onChannel {channels : List (Fin maxChannal)} (h : channels.Nodup)
    (packets : List MessagePacket) (k : Nat) :
    (channels.flatMap fun channel =>
        (packets.filter (·.channel = channel.val)).map Event.onPacketRecv).filterMap
      (Event.onChannel k) =
      if k ∈ channels.map Fin.val then packets.filter (·.channel = k) else [] := by
  induction channels with
  | nil => simp
  | cons channel rest ih =>
      obtain ⟨hchannel, hrest⟩ := List.nodup_cons.mp h
      rw [List.flatMap_cons, List.filterMap_append, ih hrest, filterMap_onChannel]
      by_cases hk : channel.val = k
      · subst hk
        have hnot : channel.val ∉ rest.map Fin.val := by
          simpa [Fin.val_inj] using hchannel
        simp [hnot]
      · have hk' : k ≠ channel.val := fun heq => hk heq.symm
        simp [hk, hk']

/-- The stream branch after `TryConsume`: with empty queues, every channel gets its packets. -/
theorem Processer.delivered_flush (p : Processer) (packets : List MessagePacket)
    (hempty : ∀ channel, p.messageQueues channel = [])
    (h : ∀ packet ∈ packets, packet.channel < maxChannal) :
    ∃ q, p.pushPackets packets = .ok q ∧
      (q.flushQueues (List.finRange maxChannal)).readBuf = p.readBuf ∧
      (q.flushQueues (List.finRange maxChannal)).connectionType = p.connectionType ∧
      (∀ channel, (q.flushQueues (List.finRange maxChannal)).messageQueues channel = []) ∧
      (.disconnect ∈ (q.flushQueues (List.finRange maxChannal)).events ↔
        .disconnect ∈ p.events) ∧
      ∀ channel, (q.flushQueues (List.finRange maxChannal)).delivered channel =
        p.delivered channel ++ packets.filter (·.channel = channel) := by
  refine ⟨_, Processer.pushPackets_eq h, ?_⟩
  rw [Processer.flushQueues_eq (List.nodup_finRange _)]
  refine ⟨rfl, rfl, fun channel => by simp, by simp, fun k => ?_⟩
  simp only [Processer.delivered, hempty, List.nil_append, List.filterMap_append]
  congr 1
  rw [filterMap_flatMap_onChannel (List.nodup_finRange _)]
  split_ifs with hk
  · rfl
  · refine (List.filter_eq_nil_iff.mpr fun packet hpacket heq => hk ?_).symm
    have hchannel := h packet hpacket
    exact List.mem_map.mpr ⟨⟨packet.channel, hchannel⟩, List.mem_finRange _, by simpa using heq⟩

/-! ## Runs -/

/-- The state of a receiver that has received these bytes of the stream of packets: it is
connected, every channel has delivered exactly its complete packets in sending order, and
`readBuf` holds what follows the last complete packet. -/
structure Reassembled (packets : List (List UInt8)) (sent : List MessagePacket)
    (received : List UInt8) (p : Processer) : Prop where
  connected : .disconnect ∉ p.events
  delivered : ∀ channel, p.delivered channel =
    (sent.take (completeCount packets received.length)).filter (·.channel = channel)
  readBuf : p.readBuf =
    received.drop (packets.take (completeCount packets received.length)).flatten.length

/-- A reassembled receiver of a stream between two calls. -/
structure StreamInv (packets : List (List UInt8)) (sent : List MessagePacket)
    (received : List UInt8) (p : Processer) : Prop where
  reassembled : Reassembled packets sent received p
  stream : p.connectionType ≠ .udp
  empty : ∀ channel, p.messageQueues channel = []

/-- The channels of sent packets are channels. -/
theorem sentPackets_channel (sendChannels : Counters) (messages : List OutMessage) :
    ∀ packet ∈ sentPackets sendChannels messages, packet.channel < maxChannal := by
  induction messages generalizing sendChannels with
  | nil => simp [sentPackets]
  | cons message rest ih =>
      intro packet hpacket
      rcases List.mem_cons.mp hpacket with rfl | hrest
      · exact message.channel.isLt
      · exact ih _ packet hrest

/-- A call that brings the next bytes of the stream keeps the receiver reassembled. -/
theorem StreamInv.step {packets : List (List UInt8)} {sent : List MessagePacket}
    (hpackets : List.Forall₂ PacketOf packets sent)
    (hchannels : ∀ packet ∈ sent, packet.channel < maxChannal) {received : List UInt8}
    {p : Processer} (hinv : StreamInv packets sent received p) {call : ReadCall}
    (hbytes : received ++ call.data <+: packets.flatten)
    (hnul : ∃ rest, call.behind = 0 :: rest)
    (hroom : p.readBuf.length + call.data.length < 2 ^ 32) :
    ∃ q, p.step call = some q ∧ StreamInv packets sent (received ++ call.data) q := by
  obtain ⟨rest, hbehind⟩ := hnul
  obtain ⟨part, hsplit, -⟩ := completeCount_split ((List.prefix_append _ _).trans hbytes)
  have hcount := completeCount_add packets received.length call.data.length
  have hdelivered := hinv.reassembled.delivered
  have hread := hinv.reassembled.readBuf
  generalize completeCount packets received.length = n at *
  -- The bytes in `readBuf` and the new ones are the start of the packets that are left.
  have hpart : p.readBuf = part := by
    rw [hread, hsplit, List.drop_append_length]
  have hleft : part ++ call.data <+: (packets.drop n).flatten := by
    rw [hsplit, List.append_assoc, ← List.take_append_drop n packets, List.flatten_append,
      List.take_append_drop] at hbytes
    exact (List.prefix_append_right_inj _).mp hbytes
  have hlen : (part ++ call.data).length < 2 ^ 32 := by
    rw [List.length_append, ← hpart]
    exact hroom
  have hparse := tryConsume_stream (List.forall₂_drop n hpackets) hleft hlen rest
  obtain ⟨final, hfinal, -⟩ := completeCount_split hleft
  have htotal : completeCount packets (received ++ call.data).length =
      n + completeCount (packets.drop n) (part ++ call.data).length := by
    rw [List.length_append, hcount, List.length_append]
    congr 2
    rw [hsplit, List.length_append]
    omega
  generalize completeCount (packets.drop n) (part ++ call.data).length = m at *
  have hnew : ∀ packet ∈ (sent.drop n).take m, packet.channel < maxChannal :=
    fun packet hpacket => hchannels packet (List.mem_of_mem_drop (List.mem_of_mem_take hpacket))
  obtain ⟨q, hpush, hbuf, htype, hqueues, hevents, hnext⟩ := Processer.delivered_flush
    { p with readBuf := (part ++ call.data).drop ((packets.drop n).take m).flatten.length } _
    hinv.empty hnew
  have hconsumed : ¬ (part ++ call.data).length < ((packets.drop n).take m).flatten.length := by
    rw [hfinal, List.length_append]
    omega
  refine ⟨q.flushQueues (List.finRange maxChannal), ?_, ⟨?_, ?_, ?_⟩, ?_, hqueues⟩
  · rw [Processer.step, Processer.onRead, if_neg hinv.stream, Processer.onReadStream, hpart,
      hbehind, Nat.mod_eq_of_lt hlen, hparse]
    simp only [ne_eq, not_true_eq_false, if_false, if_neg hconsumed, hpush]
    rfl
  · rw [hevents]
    exact hinv.reassembled.connected
  · intro channel
    rw [hnext, htotal, List.take_add, List.filter_append, ← hdelivered]
    rfl
  · rw [hbuf, htotal, List.take_add, List.flatten_append, List.length_append, hsplit,
      List.append_assoc, List.drop_length_add_append]
  · rw [htype]
    exact hinv.stream

/-- The bytes handed over by a list of calls. -/
def receivedBytes (calls : List ReadCall) : List UInt8 := (calls.map ReadCall.data).flatten

/-- The memory behind the contents of `readBuf` starts with a NUL, as `strstr` requires. -/
def NulBehind (calls : List ReadCall) : Prop := ∀ call ∈ calls, ∃ rest, call.behind = 0 :: rest

/-- The bytes that a call leaves to parse fit `uint32_t`. -/
def FitsLength (p : Processer) (call : ReadCall) : Prop :=
  p.readBuf.length + call.data.length < 2 ^ 32

/-- A run of calls that brings bytes of the stream keeps the receiver reassembled. -/
theorem StreamInv.run {packets : List (List UInt8)} {sent : List MessagePacket}
    (hpackets : List.Forall₂ PacketOf packets sent)
    (hchannels : ∀ packet ∈ sent, packet.channel < maxChannal) {received : List UInt8}
    {p : Processer} (hinv : StreamInv packets sent received p) {calls : List ReadCall}
    (hbytes : received ++ receivedBytes calls <+: packets.flatten) (hnul : NulBehind calls)
    (hroom : Guarded Processer.step FitsLength p calls) :
    ∃ q, exec Processer.step p calls = some q ∧
      StreamInv packets sent (received ++ receivedBytes calls) q := by
  induction calls generalizing received p with
  | nil => exact ⟨p, rfl, by simpa [receivedBytes] using hinv⟩
  | cons call calls ih =>
      have hsplit : received ++ receivedBytes (call :: calls) =
          received ++ call.data ++ receivedBytes calls := by
        simp [receivedBytes]
      rw [hsplit] at hbytes ⊢
      obtain ⟨next, hstep, hnext⟩ := hinv.step hpackets hchannels
        ((List.prefix_append _ _).trans hbytes) (hnul call (by simp)) hroom.1
      obtain ⟨q, hrun, hq⟩ := ih hnext hbytes (fun other hother => hnul other (by simp [hother]))
        (hroom.2 next hstep)
      exact ⟨q, exec_cons_eq_some.mpr ⟨next, hstep, hrun⟩, hq⟩

/-- Stream reassembly. After every call of every run that brings a part of the stream of built
packets to a fresh receiver, the receiver is reassembled, provided that `readBuf` never holds
`2 ^ 32` bytes or more. -/
theorem stream_reassembled {sendChannels : Counters} {messages : List OutMessage}
    (hsend : Sendable sendChannels messages) {type : EMessageConnectionType} (htype : type ≠ .udp)
    {calls : List ReadCall}
    (hbytes : receivedBytes calls <+: (buildPackets sendChannels messages).flatten)
    (hnul : NulBehind calls)
    (hroom : Guarded Processer.step FitsLength { connectionType := type } calls) :
    ∀ first, first <+: calls → ∃ p,
      exec Processer.step { connectionType := type } first = some p ∧
      Reassembled (buildPackets sendChannels messages) (sentPackets sendChannels messages)
        (receivedBytes first) p := by
  rintro first ⟨later, rfl⟩
  have hfirst : receivedBytes first <+: (buildPackets sendChannels messages).flatten := by
    refine (List.prefix_append _ (receivedBytes later)).trans ?_
    simpa [receivedBytes] using hbytes
  have hnonempty : ∀ packet ∈ buildPackets sendChannels messages, packet ≠ [] := by
    intro packet hpacket
    obtain ⟨found, lines, body, header, -, -, rfl, -⟩ := exists_packetOf hsend.packetOf hpacket
    simp [packetBytes, startLine, messageBegin, ascii]
  have hstart : StreamInv (buildPackets sendChannels messages) (sentPackets sendChannels messages)
      [] { connectionType := type } := by
    refine ⟨⟨by simp, fun channel => ?_, by simp⟩, htype, fun channel => rfl⟩
    rw [List.length_nil, completeCount_zero hnonempty]
    rfl
  obtain ⟨p, hrun, hinv⟩ := hstart.run hsend.packetOf (sentPackets_channel sendChannels messages)
    hfirst (fun call hcall => hnul call (by simp [hcall])) hroom.left
  exact ⟨p, hrun, hinv.reassembled⟩

/-- Counters of a fresh sender. -/
def freshCounters : Counters := fun _ => 0

/-- The packet of an empty message, received in two parts. -/
def indexCalls : List ReadCall :=
  [{ data := indexLine, behind := [0] }, { data := messageEnd ++ messageEnd, behind := [0] }]

/-- Both calls leave the receiver reassembled, the first one in the middle of a header line. -/
theorem index_calls_reassembled :
    ∃ p q, exec Processer.step { connectionType := .tcp } (indexCalls.take 1) = some p ∧
      Reassembled (buildPackets freshCounters [⟨channelZero, []⟩])
        (sentPackets freshCounters [⟨channelZero, []⟩]) (receivedBytes (indexCalls.take 1)) p ∧
      exec Processer.step { connectionType := .tcp } indexCalls = some q ∧
      Reassembled (buildPackets freshCounters [⟨channelZero, []⟩])
        (sentPackets freshCounters [⟨channelZero, []⟩]) (receivedBytes indexCalls) q := by
  have hsend : Sendable freshCounters [⟨channelZero, []⟩] := ⟨by decide, by decide, trivial⟩
  have hbytes : receivedBytes indexCalls <+:
      (buildPackets freshCounters [⟨channelZero, []⟩]).flatten := by decide
  have hnul : NulBehind indexCalls := by
    intro call hcall
    rcases List.mem_pair.mp hcall with rfl | rfl <;> exact ⟨[], rfl⟩
  have hroom : Guarded Processer.step FitsLength { connectionType := .tcp } indexCalls := by
    refine ⟨?_, fun p hp => ⟨?_, fun q hq => trivial⟩⟩
    · show 0 + indexLine.length < 2 ^ 32
      decide
    · cases hp
      show indexLine.length + (messageEnd ++ messageEnd).length < 2 ^ 32
      decide
  have hcalls := stream_reassembled hsend (by decide) hbytes hnul hroom
  obtain ⟨p, hrun, hfirst⟩ := hcalls (indexCalls.take 1) (List.take_prefix 1 indexCalls)
  obtain ⟨q, hrun', hboth⟩ := hcalls indexCalls (List.prefix_refl indexCalls)
  exact ⟨p, q, hrun, hfirst, hrun', hboth⟩

theorem buildPacket_counter (sendChannels : Counters) (body : List UInt8)
    (channel : Fin maxChannal) :
    (buildPacket sendChannels body channel).2 channel = (sendChannels channel + 1) % 2 ^ 32 := by
  simp [buildPacket]

/-- The packet of a body of `2 ^ 31 - 36` bytes, on channel 0 with a counter of one digit. -/
theorem buildPacket_full {sendChannels : Counters} {body : List UInt8}
    (hbody : body.length = 2 ^ 31 - 36)
    (h : (decimal (sendChannels channelZero)).length = 1) :
    (buildPacket sendChannels body channelZero).1.length = 2 ^ 31 := by
  have hdigits : (decimal (2 ^ 31 - 36)).length = 10 := by decide
  have hchannel : channelLine channelZero.val = [] := rfl
  rw [buildPacket_bytes, hbody, hchannel, lengthLine, if_pos (by omega)]
  simp only [packetBytes, lineBytes, addHeader, List.length_append, List.length_nil, h, hdigits,
    hbody]
  rfl

/-- With no bytes to parse, `TryConsume` returns at once. -/
theorem tryConsume_zero (memory : List UInt8) : tryConsume memory 0 = .ok {} := rfl

/-- A first call that fills `readBuf` with `2 ^ 32` bytes delivers nothing: the length is converted
to the `uint32_t` 0. -/
theorem step_full {stream : List UInt8} (h : stream.length = 2 ^ 32) (behind : List UInt8) :
    ∃ p, Processer.step { connectionType := .tcp } ⟨stream, behind⟩ = some p ∧
      ∀ channel, p.delivered channel = [] := by
  obtain ⟨q, hpush, -, -, -, -, hdelivered⟩ := Processer.delivered_flush
    { connectionType := .tcp, readBuf := stream } [] (fun channel => rfl) (by simp)
  refine ⟨q.flushQueues (List.finRange maxChannal), ?_, fun channel => ?_⟩
  · rw [Processer.step, Processer.onRead, if_neg (by decide), Processer.onReadStream]
    simp only [List.nil_append, h, Nat.mod_self, tryConsume_zero, List.drop_zero, hpush]
    rfl
  · rw [hdelivered]
    rfl

/-- Two messages whose packets fill `2 ^ 32` bytes when the body has `2 ^ 31 - 36` bytes. -/
def fullMessages (body : List UInt8) : List OutMessage :=
  [⟨channelZero, body⟩, ⟨channelZero, body⟩]

theorem fullMessages_sendable {body : List UInt8} (hbody : body.length = 2 ^ 31 - 36) :
    Sendable freshCounters (fullMessages body) := by
  have hshort : body.length < 2 ^ 31 := by omega
  have hfirst : freshCounters channelZero < 2 ^ 31 := by decide
  refine ⟨hshort, hfirst, hshort, ?_, trivial⟩
  show (buildPacket freshCounters body channelZero).2 channelZero < 2 ^ 31
  rw [buildPacket_counter]
  decide

/-- The two packets have `2 ^ 31` bytes each. -/
theorem fullMessages_packets {body : List UInt8} (hbody : body.length = 2 ^ 31 - 36) :
    ∃ first second, buildPackets freshCounters (fullMessages body) = [first, second] ∧
      first.length = 2 ^ 31 ∧ second.length = 2 ^ 31 := by
  refine ⟨_, _, rfl, buildPacket_full hbody (by decide), buildPacket_full hbody ?_⟩
  show (decimal ((buildPacket freshCounters body channelZero).2 channelZero)).length = 1
  rw [buildPacket_counter]
  decide

/-- A receiver that has delivered nothing is not reassembled after both packets. -/
theorem not_reassembled_full {body : List UInt8} (hbody : body.length = 2 ^ 31 - 36)
    {p : Processer} (h : ∀ channel, p.delivered channel = []) :
    ¬ Reassembled (buildPackets freshCounters (fullMessages body))
      (sentPackets freshCounters (fullMessages body))
      (buildPackets freshCounters (fullMessages body)).flatten p := by
  obtain ⟨first, second, hpackets, hfirst, hsecond⟩ := fullMessages_packets hbody
  intro hreassembled
  have hdelivered := hreassembled.delivered 0
  have hcount : completeCount [first, second] [first, second].flatten.length = 2 := by
    have hlen : [first, second].flatten.length = 2 ^ 32 := by simp [hfirst, hsecond]
    rw [hlen, completeCount, if_pos (by omega), completeCount, if_pos (by omega), completeCount]
  rw [h, hpackets, hcount] at hdelivered
  cases hdelivered

/-- A body of zeros whose packet has `2 ^ 31` bytes. -/
def fullBody : List UInt8 := List.replicate (2 ^ 31 - 36) 0

/-- The stream of two full messages in one call. -/
def fullCalls (body : List UInt8) : List ReadCall :=
  [⟨(buildPackets freshCounters (fullMessages body)).flatten, [0]⟩]

/-- The stream of two full messages, received in one call, is not reassembled. -/
theorem full_buffer_not_reassembled :
    Sendable freshCounters (fullMessages fullBody) ∧
      receivedBytes (fullCalls fullBody) <+:
        (buildPackets freshCounters (fullMessages fullBody)).flatten ∧
      NulBehind (fullCalls fullBody) ∧
      ∃ p, exec Processer.step { connectionType := .tcp } (fullCalls fullBody) = some p ∧
        ¬ Reassembled (buildPackets freshCounters (fullMessages fullBody))
          (sentPackets freshCounters (fullMessages fullBody))
          (receivedBytes (fullCalls fullBody)) p := by
  have hbody : fullBody.length = 2 ^ 31 - 36 := List.length_replicate
  generalize fullBody = body at *
  obtain ⟨first, second, hpackets, hfirst, hsecond⟩ := fullMessages_packets hbody
  have hlen : (buildPackets freshCounters (fullMessages body)).flatten.length = 2 ^ 32 := by
    simp [hpackets, hfirst, hsecond]
  have hreceived : receivedBytes (fullCalls body) =
      (buildPackets freshCounters (fullMessages body)).flatten := by
    simp [receivedBytes, fullCalls]
  obtain ⟨p, hstep, hdelivered⟩ := step_full hlen [0]
  refine ⟨fullMessages_sendable hbody, ?_, ?_, p, exec_cons_eq_some.mpr ⟨p, hstep, rfl⟩, ?_⟩
  · rw [hreceived]
  · intro call hcall
    rw [List.mem_singleton.mp hcall]
    exact ⟨[], rfl⟩
  · rw [hreceived]
    exact not_reassembled_full hbody hdelivered

end Utilpp.Message
