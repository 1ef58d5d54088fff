import Utilpp.Message.Grammar
import Mathlib.Data.List.Forall2

/-!
# Built packets are complete packets

The bytes that `BuildPacket` emits are a packet of the grammar, and the packet they stand for has
the channel, the counter and the body they were built from (`buildPacket_packetOf`).
-/

namespace Utilpp.Message

open Lib

/-- Channel 0. -/
def channelZero : Fin maxChannal := ⟨0, by decide⟩

/-- A number below `2 ^ 31` has at most ten digits. -/
theorem decimal_length {n : Nat} (h : n < 2 ^ 31) : (decimal n).length ≤ 10 := by
  rw [decimal, ascii, List.length_map, Nat.length_toDigits_le_iff (by decide) (by decide)]
  omega

/-- The header keys of the protocol. -/
def headerKey : EMessageHeader → List UInt8
  | .contentLength => messageHeaderLength
  | .channel => messageHeaderChannel
  | .index => messageHeaderIndex
  | .custom => []

/-- A header line with a number splits into its key and its number. -/
theorem splits_decimal (header : EMessageHeader) (n : Nat) :
    Splits (headerKey header) (decimal n) := by
  have hdigit : ∀ b ∈ decimal n, b ≠ 0 ∧ b ≠ 13 := by
    intro b hb
    have hd := isDigit_of_mem_decimal hb
    constructor
    all_goals
      intro heq
      rw [heq] at hd
      exact absurd hd (by decide)
  have hclean : (headerKey header ++ messageHeaderSeparator).all (fun b => b ≠ 0 ∧ b ≠ 13) := by
    cases header <;> decide
  have hkey : ∀ b ∈ headerKey header ++ messageHeaderSeparator, b ≠ 0 ∧ b ≠ 13 :=
    fun b hb => of_decide_eq_true (List.all_eq_true.mp hclean b hb)
  have hall : ∀ b ∈ headerKey header ++ messageHeaderSeparator ++ decimal n, b ≠ 0 ∧ b ≠ 13 := by
    intro b hb
    rcases List.mem_append.mp hb with hb | hb
    · exact hkey b hb
    · exact hdigit b hb
  refine ⟨fun h0 => (hall 0 h0).1 rfl, fun hin => ?_, ?_⟩
  · exact (hall 13 (hin.subset (by decide))).2 rfl
  · cases header <;> decide

/-- Storing a header value that was printed as a number below `2 ^ 31`. -/
theorem storeHeader_decimal {header : EMessageHeader} (packet : MessagePacket) {n : Nat}
    (hheader : header ≠ .custom) (h : n < 2 ^ 31) :
    storeHeader packet (headerKey header) (decimal n) = .ok (packet.setHeader n header) := by
  have hdecimal := decimal_length h
  have hmap : mapHeader (headerKey header) = some header := by
    cases header with
    | custom => exact absurd rfl hheader
    | contentLength | channel | index => decide
  have hkey : (headerKey header).length ≤ 7 := by
    cases header <;> decide
  rw [storeHeader, if_neg (by omega), hmap]
  simp only
  rw [if_neg (by omega), stoi_decimal h]

/-- One more header line with a number in front of complete lines. -/
theorem HeaderLines.cons_decimal {packet last : MessagePacket} {lines : List UInt8}
    (header : EMessageHeader) {n : Nat} (hheader : header ≠ .custom) (h : n < 2 ^ 31)
    (hlines : HeaderLines (packet.setHeader n header) lines last) :
    HeaderLines packet (lineBytes (headerKey header) (decimal n) ++ lines) last :=
  .cons (splits_decimal header n) (storeHeader_decimal packet hheader h) hlines

/-- Numbers that fit their field are stored as they are. -/
theorem toNat_emod {n m : Nat} (h : n < 2 ^ m) : ((n : Int) % 2 ^ m).toNat = n := by
  rw [Int.emod_eq_of_lt (by omega) (by exact_mod_cast h), Int.toNat_natCast]

/-- The channel line of a packet; channel 0 has none. -/
def channelLine (channel : Nat) : List UInt8 :=
  if 0 < channel then lineBytes messageHeaderChannel (decimal channel) else []

/-- The length line of a packet; an empty body has none. -/
def lengthLine (length : Nat) : List UInt8 :=
  if 0 < length then lineBytes messageHeaderLength (decimal length) else []

theorem buildPacket_bytes (sendChannels : Counters) (body : List UInt8)
    (channel : Fin maxChannal) :
    (buildPacket sendChannels body channel).1 =
      packetBytes (channelLine channel ++ (lineBytes messageHeaderIndex
        (decimal (sendChannels channel)) ++ lengthLine body.length)) body := by
  have hbody : 0 < body.length ∨ body = [] := by
    cases body <;> simp
  rw [buildPacket, packetBytes, channelLine, lengthLine]
  rcases hbody with hbody | rfl
  · by_cases hchannel : 0 < channel.val <;> simp [addHeader_eq, startLine, hchannel, hbody]
  · by_cases hchannel : 0 < channel.val <;> simp [addHeader_eq, startLine, hchannel]

/-- The packet that `BuildPacket` emits parses back to the channel, the counter and the body it
was built from. -/
theorem buildPacket_packetOf {sendChannels : Counters} {body : List UInt8}
    {channel : Fin maxChannal} (hbody : body.length < 2 ^ 31)
    (hcount : sendChannels channel < 2 ^ 31) :
    PacketOf (buildPacket sendChannels body channel).1
      { messageContent := body
        contentLength := body.length
        channel := channel
        index := sendChannels channel } := by
  have hchannel : channel.val < 2 ^ 8 := Nat.lt_trans channel.isLt (by decide)
  have hlength : ∀ header : MessagePacket, header.contentLength = 0 →
      HeaderLines header (lengthLine body.length)
        { header with contentLength := body.length } := by
    intro header hzero
    rw [lengthLine]
    split_ifs with hempty
    · have hstored : header.setHeader body.length .contentLength =
          { header with contentLength := body.length } := by
        rw [MessagePacket.setHeader, toNat_emod (by omega)]
      rw [← List.append_nil (lineBytes _ _)]
      exact HeaderLines.cons_decimal .contentLength (by simp) hbody
        (hstored ▸ .nil _)
    · have hsame : { header with contentLength := body.length } = header := by
        rw [show body.length = header.contentLength by omega]
      rw [hsame]
      exact .nil header
  have hindex : ∀ header : MessagePacket, header.contentLength = 0 →
      HeaderLines header (lineBytes messageHeaderIndex (decimal (sendChannels channel)) ++
        lengthLine body.length)
        { header with index := sendChannels channel, contentLength := body.length } := by
    intro header hzero
    refine HeaderLines.cons_decimal .index (by simp) hcount ?_
    have hstored : header.setHeader (sendChannels channel) .index =
        { header with index := sendChannels channel } := by
      rw [MessagePacket.setHeader, toNat_emod (by omega)]
    rw [hstored]
    exact hlength _ hzero
  refine ⟨_, body, ⟨[], body.length, channel, sendChannels channel⟩, ?_, rfl,
    buildPacket_bytes _ _ _, rfl⟩
  rw [channelLine]
  split_ifs with hpositive
  · refine HeaderLines.cons_decimal .channel (by simp) (by omega) ?_
    have hstored : ({} : MessagePacket).setHeader channel.val .channel =
        { channel := channel } := by
      rw [MessagePacket.setHeader, toNat_emod hchannel]
    rw [hstored]
    exact hindex _ rfl
  · rw [show channel.val = 0 by omega]
    exact hindex {} rfl

/-- The packets of sendable messages are complete packets. -/
theorem Sendable.packetOf {sendChannels : Counters} {messages : List OutMessage}
    (h : Sendable sendChannels messages) :
    List.Forall₂ PacketOf (buildPackets sendChannels messages)
      (sentPackets sendChannels messages) := by
  induction messages generalizing sendChannels with
  | nil => exact .nil
  | cons message rest ih =>
      obtain ⟨hbody, hcount, hrest⟩ := h
      exact .cons (buildPacket_packetOf hbody hcount) (ih hrest)

end Utilpp.Message
