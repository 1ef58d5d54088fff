import Utilpp.Steam.PacketMsg
import Mathlib.Data.Nat.Bitwise

/-!
# Round trip of Steam packets

When `Parse` gives back what `SerializeToOstream` wrote (`roundTrips_iff`). The two fixed headers
are read back whatever follows them. The protobuf header is parsed from its own bytes together
with the whole body, because `Parse` hands the rest of the stream to protobuf although it has
read the length of the header.
-/

namespace Utilpp.Steam

open Lib

variable {CMsgProtoBufHeader : Type}

/-! ## The message type -/

theorem toNat_protoMask : protoMask.toNat = 2 ^ 31 := rfl

theorem toNat_not_protoMask : (~~~protoMask).toNat = 2 ^ 31 - 1 := rfl

/-- A message type below `2 ^ 31` has no bit in common with the mask. -/
theorem and_protoMask {msgType : UInt32} (h : msgType.toNat < 2 ^ 31) :
    msgType &&& protoMask = 0 ∧ msgType &&& ~~~protoMask = msgType := by
  constructor
  · apply UInt32.toNat.inj
    rw [UInt32.toNat_and, toNat_protoMask, Nat.and_two_pow, Nat.testBit_lt_two_pow h]
    rfl
  · apply UInt32.toNat.inj
    rw [UInt32.toNat_and, toNat_not_protoMask, Nat.and_two_pow_sub_one_eq_mod, Nat.mod_eq_of_lt h]

/-- The mask can be set in a message type below `2 ^ 31` and taken away again. -/
theorem or_protoMask {msgType : UInt32} (h : msgType.toNat < 2 ^ 31) :
    (msgType ||| protoMask) &&& protoMask ≠ 0 ∧
      (msgType ||| protoMask) &&& ~~~protoMask = msgType := by
  have hor : (msgType ||| protoMask).toNat = 2 ^ 31 * 1 + msgType.toNat := by
    rw [UInt32.toNat_or, toNat_protoMask, Nat.two_pow_add_eq_or_of_lt h, Nat.or_comm, mul_one]
  constructor
  · intro hzero
    have hbits := congrArg UInt32.toNat hzero
    rw [UInt32.toNat_and, toNat_protoMask, Nat.and_two_pow, hor,
      Nat.testBit_two_pow_mul_add _ h] at hbits
    simp at hbits
  · apply UInt32.toNat.inj
    rw [UInt32.toNat_and, toNat_not_protoMask, Nat.and_two_pow_sub_one_eq_mod, hor,
      Nat.mul_add_mod, Nat.mod_eq_of_lt h]

/-! ## Reading headers back -/

theorem MsgHeader.length_write (header : MsgHeader) : header.write.length = 16 := by
  simp [MsgHeader.write]

theorem ExtendedClientMsgHeader.length_write (header : ExtendedClientMsgHeader) :
    header.write.length = 32 := by
  simp [ExtendedClientMsgHeader.write]

/-- A complete `MsgHeader_t` is read back. -/
theorem MsgHeader.read_write (header : MsgHeader) (rest : List UInt8) (readLen : Nat) :
    MsgHeader.read ⟨header.write ++ rest, readLen⟩ = (header, ⟨rest, readLen + 16⟩) := by
  have htarget := header.targetJobID.toNat_lt
  have hsource := header.sourceJobID.toNat_lt
  simp only [MsgHeader.read, MsgHeader.write, List.append_assoc,
    SpanStream.read_toBytes (show header.targetJobID.toNat < 256 ^ 8 by omega),
    SpanStream.read_toBytes (show header.sourceJobID.toNat < 256 ^ 8 by omega),
    UInt64.ofNat_toNat]

/-- A complete `ExtendedClientMsgHeader_t` is read back. -/
theorem ExtendedClientMsgHeader.read_write (header : ExtendedClientMsgHeader)
    (rest : List UInt8) (readLen : Nat) :
    ExtendedClientMsgHeader.read ⟨header.write ++ rest, readLen⟩ =
      (header, ⟨rest, readLen + 32⟩) := by
  have hsize := header.headerSize.toNat_lt
  have hversion := header.headerVersion.toNat_lt
  have htarget := header.targetJobID.toNat_lt
  have hsource := header.sourceJobID.toNat_lt
  have hcanary := header.headerCanary.toNat_lt
  have hsteam := header.steamID.toNat_lt
  have hsession := header.sessionID.toUInt32.toNat_lt
  simp only [ExtendedClientMsgHeader.read, ExtendedClientMsgHeader.write, List.append_assoc,
    SpanStream.read_toBytes (show header.headerSize.toNat < 256 ^ 1 by omega),
    SpanStream.read_toBytes (show header.headerVersion.toNat < 256 ^ 2 by omega),
    SpanStream.read_toBytes (show header.targetJobID.toNat < 256 ^ 8 by omega),
    SpanStream.read_toBytes (show header.sourceJobID.toNat < 256 ^ 8 by omega),
    SpanStream.read_toBytes (show header.headerCanary.toNat < 256 ^ 1 by omega),
    SpanStream.read_toBytes (show header.steamID.toNat < 256 ^ 8 by omega),
    SpanStream.read_toBytes (show header.sessionID.toUInt32.toNat < 256 ^ 4 by omega),
    UInt8.ofNat_toNat, UInt16.ofNat_toNat, UInt64.ofNat_toNat, UInt32.ofNat_toNat,
    Int32.toInt32_toUInt32]

/-- Reading a `MsgHeader_t` counts every byte it takes from the stream. -/
theorem MsgHeader.read_count (stream : SpanStream) :
    (MsgHeader.read stream).2.readLen ≤ stream.readLen + stream.rest.length := by
  have hfirst := stream.read_count 8
  have hsecond := (stream.read 8).2.read_count 8
  simp only [MsgHeader.read]
  omega

/-- Reading an `ExtendedClientMsgHeader_t` counts every byte it takes from the stream. -/
theorem ExtendedClientMsgHeader.read_count (stream : SpanStream) :
    (ExtendedClientMsgHeader.read stream).2.readLen ≤ stream.readLen + stream.rest.length := by
  simp only [ExtendedClientMsgHeader.read]
  generalize hsize : (stream.read 1).2 = afterSize
  generalize hversion : (afterSize.read 2).2 = afterVersion
  generalize htarget : (afterVersion.read 8).2 = afterTarget
  generalize hsource : (afterTarget.read 8).2 = afterSource
  generalize hcanary : (afterSource.read 1).2 = afterCanary
  generalize hsteam : (afterCanary.read 8).2 = afterSteam
  have := hsize ▸ stream.read_count 1
  have := hversion ▸ afterSize.read_count 2
  have := htarget ▸ afterVersion.read_count 8
  have := hsource ▸ afterTarget.read_count 8
  have := hcanary ▸ afterSource.read_count 1
  have := hsteam ▸ afterCanary.read_count 8
  have := afterSteam.read_count 4
  omega

/-! ## Parsing written bytes -/

/-- A length below `2 ^ 31` is converted to the same `int32_t`. -/
theorem bmod_short {n : Nat} (h : n < 2 ^ 31) : Int.bmod n (2 ^ 32) = n := by
  have hbmod := Int.bmod_def n (2 ^ 32)
  omega

/-- A length from `2 ^ 31` on loses at least `2 ^ 32` when it is converted to `int32_t`. -/
theorem bmod_long {n : Nat} (h : 2 ^ 31 ≤ n) :
    Int.bmod n (2 ^ 32) ≤ n - 2 ^ 32 ∧ Int.bmod n (2 ^ 32) < 2 ^ 31 := by
  have hbmod := Int.bmod_def n (2 ^ 32)
  omega

variable {emsg : EMsg} {protoBuf : ProtoBuf CMsgProtoBufHeader}

/-- `Parse` on data that starts with a message type. -/
theorem parse_word (word : UInt32) (rest : List UInt8) {len : Int} (hfour : 4 ≤ len)
    (hlen : len ≤ 4 + rest.length) :
    parse emsg protoBuf (toBytes 4 word.toNat ++ rest) len =
      parseHeader emsg protoBuf word len ⟨rest.take (len.toNat - 4), 4⟩ := by
  have hword : word.toNat < 256 ^ 4 := word.toNat_lt
  have htake : (toBytes 4 word.toNat ++ rest).take len.toNat =
      toBytes 4 word.toNat ++ rest.take (len.toNat - 4) := by
    rw [List.take_append, length_toBytes, List.take_of_length_le]
    rw [length_toBytes]
    omega
  rw [parse, if_neg (by omega), if_neg (by simp; omega), htake, SpanStream.read_toBytes hword]
  simp

/-- `Parse` only parses a length between the size of the message type and that of the data. -/
theorem parse_eq_parsed {data : List UInt8} {len : Int} {msg : PacketMsg CMsgProtoBufHeader}
    {view : View} (h : parse emsg protoBuf data len = .parsed msg view) :
    4 ≤ len ∧ len ≤ data.length := by
  rw [parse] at h
  split at h
  · cases h
  · split at h
    · cases h
    · omega

/-- Reading a body view back. -/
theorem View.bytes_bodyView {data body : List UInt8} {len readLen : Int}
    (h : (bodyView len readLen).bytes data = some body) :
    ((len - readLen) % 2 ^ 64).toNat = body.length := by
  rw [View.bytes] at h
  split at h
  · rename_i hinside
    cases h
    simp only [bodyView] at hinside ⊢
    rw [List.length_take, List.length_drop]
    omega
  · cases h

/-- The view of what follows the header is the body. -/
theorem bodyView_bytes {header body : List UInt8}
    (h : (header ++ body).length < 2 ^ 31) :
    (bodyView (header ++ body).length header.length).bytes (header ++ body) = some body := by
  have hoffset : ((header.length : Int) % 2 ^ 64).toNat = header.length := by
    rw [List.length_append] at h
    omega
  have hlength : (((header ++ body).length - header.length : Int) % 2 ^ 64).toNat =
      body.length := by
    rw [List.length_append] at h ⊢
    omega
  rw [View.bytes, bodyView, hoffset, hlength, if_pos (by simp), List.drop_left, List.take_length]

/-! ## The round trip -/

/-- The message type and the protobuf flag select the kind of header that the message has. -/
def PacketMsg.Selects (emsg : EMsg) (msg : PacketMsg CMsgProtoBufHeader) : Prop :=
  match msg.header with
  | .msg _ => emsg.channelEncrypt msg.msgType = true
  | .protoBuf _ => emsg.channelEncrypt msg.msgType = false ∧ msg.bProtoBuf = true
  | .extended _ => emsg.channelEncrypt msg.msgType = false ∧ msg.bProtoBuf = false

/-- `Parse` succeeds on the bytes that `SerializeToOstream` emits and gives the same message type,
the same header and the body. The length of the bytes is converted to `int32_t`. -/
def RoundTrips (emsg : EMsg) (protoBuf : ProtoBuf CMsgProtoBufHeader)
    (msg : PacketMsg CMsgProtoBufHeader) (body : List UInt8) : Prop :=
  ∃ data parsed view, msg.serializeToOstream emsg protoBuf body = some data ∧
    parse emsg protoBuf data (Int.bmod data.length (2 ^ 32)) = .parsed parsed view ∧
    parsed.msgType = msg.msgType ∧ parsed.header = msg.header ∧ view.bytes data = some body

/-- The number of bytes that `SerializeToOstream` emits. -/
def PacketMsg.byteSize (protoBuf : ProtoBuf CMsgProtoBufHeader)
    (msg : PacketMsg CMsgProtoBufHeader) (body : List UInt8) : Nat :=
  match msg.header with
  | .msg _ => 20 + body.length
  | .protoBuf header => 8 + (protoBuf.serialize header).length + body.length
  | .extended _ => 36 + body.length

/-- The header survives that protobuf is given the body as well. -/
def PacketMsg.HeaderSurvives (protoBuf : ProtoBuf CMsgProtoBufHeader)
    (msg : PacketMsg CMsgProtoBufHeader) (body : List UInt8) : Prop :=
  ∀ header, msg.header = .protoBuf header →
    protoBuf.parse (protoBuf.serialize header ++ body) = some header

variable {msgType : UInt32} {body : List UInt8}

/-- The round trip of a message with a fixed header, for any header type with a reader that reads
back what was written and counts the bytes it takes. -/
theorem roundTrips_fixed {α : Type} {read : SpanStream → α × SpanStream}
    {wrap : α → Header CMsgProtoBufHeader} {msg : PacketMsg CMsgProtoBufHeader} {header : α}
    {written : List UInt8} (hwritten : written.length < 2 ^ 16)
    (hread : ∀ rest n, read ⟨written ++ rest, n⟩ = (header, ⟨rest, n + written.length⟩))
    (hcount : ∀ stream, (read stream).2.readLen ≤ stream.readLen + stream.rest.length)
    (hheader : msg.header = wrap header)
    (hdata : msg.serializeToOstream emsg protoBuf body =
      some (toBytes 4 msg.msgType.toNat ++ (written ++ body)))
    (hparse : ∀ len stream, parseHeader emsg protoBuf msg.msgType len stream =
      .parsed ⟨msg.msgType, false, wrap (read stream).1⟩
        (bodyView len (read stream).2.readLen)) :
    RoundTrips emsg protoBuf msg body ↔ 4 + written.length + body.length < 2 ^ 31 := by
  have hlength : (toBytes 4 msg.msgType.toNat ++ (written ++ body)).length =
      4 + written.length + body.length := by
    simp only [List.length_append, length_toBytes]
    omega
  constructor
  · rintro ⟨data, parsed, view, hser, hparsed, -, -, hview⟩
    rw [hdata, Option.some.injEq] at hser
    subst hser
    rw [hlength] at hparsed
    by_contra hlong
    -- A length that does not fit `int32_t` is negative or far below that of the body.
    obtain ⟨hle, hrange⟩ := bmod_long (Nat.le_of_not_lt hlong)
    generalize Int.bmod (4 + written.length + body.length : Nat) (2 ^ 32) = len at *
    obtain ⟨hlow, hhigh⟩ := parse_eq_parsed hparsed
    rw [hlength] at hhigh
    rw [parse_word msg.msgType _ hlow (by simp only [List.length_append]; omega), hparse] at hparsed
    cases hparsed
    have hview := View.bytes_bodyView hview
    have hcounted := hcount ⟨(written ++ body).take (len.toNat - 4), 4⟩
    simp only [List.length_take] at hcounted
    omega
  · intro hshort
    have htake : (written ++ body).take ((4 + written.length + body.length : Nat) - 4) =
        written ++ body := by
      apply List.take_of_length_le
      rw [List.length_append]
      omega
    have hfits : (toBytes 4 msg.msgType.toNat ++ written ++ body).length < 2 ^ 31 := by
      rw [List.append_assoc, hlength]
      exact hshort
    have hview := bodyView_bytes hfits
    rw [List.append_assoc, hlength, List.length_append, length_toBytes] at hview
    refine ⟨_, ⟨msg.msgType, false, wrap header⟩, _, hdata, ?_, rfl, hheader.symm, hview⟩
    · rw [hlength, bmod_short hshort, parse_word msg.msgType _ (by omega)
        (by simp only [List.length_append]; omega), Int.toNat_natCast, htake, hparse, hread]

/-- The round trip of a message with `MsgHeader_t`. -/
theorem roundTrips_msg (htype : msgType.toNat < 2 ^ 31)
    (hkind : emsg.channelEncrypt msgType = true) (bProtoBuf : Bool) (header : MsgHeader) :
    RoundTrips emsg protoBuf ⟨msgType, bProtoBuf, .msg header⟩ body ↔
      20 + body.length < 2 ^ 31 := by
  have hwrite := header.length_write
  obtain ⟨hmask, hkeep⟩ := and_protoMask htype
  refine (roundTrips_fixed ?_ (fun rest n => ?_) MsgHeader.read_count rfl ?_
    (fun len stream => ?_)).trans (by rw [hwrite])
  · omega
  · rw [MsgHeader.read_write, hwrite]
  · simp [PacketMsg.serializeToOstream, hkind]
  · simp [parseHeader, hkeep, hkind, hmask]

/-- The round trip of a message with `ExtendedClientMsgHeader_t`. -/
theorem roundTrips_extended (htype : msgType.toNat < 2 ^ 31)
    (hkind : emsg.channelEncrypt msgType = false) (header : ExtendedClientMsgHeader) :
    RoundTrips emsg protoBuf ⟨msgType, false, .extended header⟩ body ↔
      36 + body.length < 2 ^ 31 := by
  have hwrite := header.length_write
  obtain ⟨hmask, hkeep⟩ := and_protoMask htype
  refine (roundTrips_fixed ?_ (fun rest n => ?_) ExtendedClientMsgHeader.read_count rfl ?_
    (fun len stream => ?_)).trans (by rw [hwrite])
  · omega
  · rw [ExtendedClientMsgHeader.read_write, hwrite]
  · simp [PacketMsg.serializeToOstream, hkind]
  · simp [parseHeader, hkeep, hkind, hmask]

/-- Protobuf is given everything behind the length of the header. -/
theorem parse_protoBuf (htype : msgType.toNat < 2 ^ 31)
    (hkind : emsg.channelEncrypt msgType = false) (bytes : List UInt8) {len : Int}
    (hfour : 4 ≤ len) (hlen : len ≤ 8 + bytes.length + body.length) :
    parse emsg protoBuf (toBytes 4 (msgType ||| protoMask).toNat ++
      (toBytes 4 bytes.length ++ (bytes ++ body))) len =
      parseProtoBuf protoBuf msgType len
        ⟨(toBytes 4 bytes.length ++ (bytes ++ body)).take (len.toNat - 4), 4⟩ := by
  obtain ⟨hmask, hkeep⟩ := or_protoMask htype
  have hrest : len ≤ 4 + (toBytes 4 bytes.length ++ (bytes ++ body)).length := by
    simp only [List.length_append, length_toBytes]
    omega
  rw [parse_word _ _ hfour hrest, parseHeader]
  simp [hkeep, hkind, hmask]

/-- The header and the body are read as one. -/
theorem parseProtoBuf_header {bytes : List UInt8} (hsize : bytes.length < 2 ^ 31) {len : Int}
    (height : 8 ≤ len) :
    parseProtoBuf protoBuf msgType len
        ⟨(toBytes 4 bytes.length ++ (bytes ++ body)).take (len.toNat - 4), 4⟩ =
      match protoBuf.parse ((bytes ++ body).take (len.toNat - 8)) with
      | none => .failed
      | some found =>
          .parsed ⟨msgType, true, .protoBuf found⟩ (bodyView len (8 + bytes.length : Nat)) := by
  have htake : (toBytes 4 bytes.length ++ (bytes ++ body)).take (len.toNat - 4) =
      toBytes 4 bytes.length ++ (bytes ++ body).take (len.toNat - 8) := by
    rw [List.take_append, length_toBytes, List.take_of_length_le, Nat.sub_sub]
    rw [length_toBytes]
    omega
  have hsmall : bytes.length < 256 ^ 4 := by omega
  have hoffset : ((4 + 4 : Nat) : Int) + bytes.length = (8 + bytes.length : Nat) := by omega
  rw [htake, parseProtoBuf, if_neg (by simp), SpanStream.read_toBytes hsmall]
  cases hparse : protoBuf.parse ((bytes ++ body).take (len.toNat - 8)) with
  | none => simp only [hparse]
  | some found => simp only [bmod_short hsize, hparse, hoffset]

/-- The round trip of a message with `CMsgProtoBufHeader`. -/
theorem roundTrips_protoBuf (htype : msgType.toNat < 2 ^ 31)
    (hkind : emsg.channelEncrypt msgType = false) (hbody : body.length < 2 ^ 32)
    {header : CMsgProtoBufHeader} (hsize : (protoBuf.serialize header).length < 2 ^ 31) :
    RoundTrips emsg protoBuf ⟨msgType, true, .protoBuf header⟩ body ↔
      8 + (protoBuf.serialize header).length + body.length < 2 ^ 31 ∧
        protoBuf.parse (protoBuf.serialize header ++ body) = some header := by
  generalize hbytes : protoBuf.serialize header = bytes at *
  have hdata : (PacketMsg.mk msgType true (.protoBuf header)).serializeToOstream emsg protoBuf
      body = some (toBytes 4 (msgType ||| protoMask).toNat ++
        (toBytes 4 bytes.length ++ (bytes ++ body))) := by
    simp only [PacketMsg.serializeToOstream, hkind, ProtoBuf.write, hbytes, Bool.false_eq_true,
      if_false, if_true, List.append_assoc, Nat.mod_eq_of_lt (show bytes.length < 2 ^ 32 by omega)]
  have hlength : (toBytes 4 (msgType ||| protoMask).toNat ++
      (toBytes 4 bytes.length ++ (bytes ++ body))).length = 8 + bytes.length + body.length := by
    simp only [List.length_append, length_toBytes]
    omega
  have htake : (bytes ++ body).take ((8 + bytes.length + body.length : Nat) - 8) =
      bytes ++ body := by
    apply List.take_of_length_le
    rw [List.length_append]
    omega
  constructor
  · rintro ⟨data, parsed, view, hser, hparsed, -, hheader, hview⟩
    rw [hdata, Option.some.injEq] at hser
    subst hser
    rw [hlength] at hparsed
    by_cases hshort : 8 + bytes.length + body.length < 2 ^ 31
    · refine ⟨hshort, ?_⟩
      rw [bmod_short hshort, parse_protoBuf htype hkind bytes (by omega) (by omega),
        parseProtoBuf_header hsize (by omega), Int.toNat_natCast,
        htake] at hparsed
      cases hfound : protoBuf.parse (bytes ++ body) with
      | none =>
          rw [hfound] at hparsed
          cases hparsed
      | some found =>
          rw [hfound] at hparsed
          cases hparsed
          cases hheader
          rfl
    · -- A length that does not fit `int32_t` is negative or leaves a view that is no body.
      obtain ⟨hle, hrange⟩ := bmod_long (Nat.le_of_not_lt hshort)
      generalize Int.bmod (8 + bytes.length + body.length : Nat) (2 ^ 32) = len at *
      obtain ⟨hlow, -⟩ := parse_eq_parsed hparsed
      rw [parse_protoBuf htype hkind bytes hlow (by omega)] at hparsed
      rcases lt_or_ge len 8 with hcut | height
      · rw [parseProtoBuf, if_pos (by simp; omega)] at hparsed
        cases hparsed
      · rw [parseProtoBuf_header hsize height] at hparsed
        cases hfound : protoBuf.parse ((bytes ++ body).take (len.toNat - 8)) with
        | none =>
            rw [hfound] at hparsed
            cases hparsed
        | some found =>
            rw [hfound] at hparsed
            cases hparsed
            have hview := View.bytes_bodyView hview
            omega
  · rintro ⟨hshort, hsurvives⟩
    have hfits : (toBytes 4 (msgType ||| protoMask).toNat ++ toBytes 4 bytes.length ++ bytes ++
        body).length < 2 ^ 31 := by
      simpa only [List.append_assoc, hlength] using hshort
    have hview := bodyView_bytes hfits
    simp only [List.append_assoc, hlength] at hview
    refine ⟨_, ⟨msgType, true, .protoBuf header⟩, _, hdata, ?_, rfl, rfl, hview⟩
    have hoffset : (toBytes 4 (msgType ||| protoMask).toNat ++
        (toBytes 4 bytes.length ++ bytes)).length = 8 + bytes.length := by
      simp only [List.length_append, length_toBytes]
      omega
    rw [hlength, bmod_short hshort, parse_protoBuf htype hkind bytes (by omega) (by omega),
        parseProtoBuf_header hsize (by omega),
      Int.toNat_natCast, htake, hsurvives, hoffset]

/-- The round trip of a Steam packet. It holds exactly when the packet is shorter than `2 ^ 31`
bytes and a protobuf header survives being parsed together with the body. -/
theorem roundTrips_iff {msg : PacketMsg CMsgProtoBufHeader} (hselects : msg.Selects emsg)
    (htype : msg.msgType.toNat < 2 ^ 31)
    (hsize : ∀ header, (protoBuf.serialize header).length < 2 ^ 31)
    (hbody : body.length < 2 ^ 32) :
    RoundTrips emsg protoBuf msg body ↔
      msg.byteSize protoBuf body < 2 ^ 31 ∧ msg.HeaderSurvives protoBuf body := by
  obtain ⟨msgType, bProtoBuf, header⟩ := msg
  cases header with
  | msg header =>
      have hsurvives : PacketMsg.HeaderSurvives protoBuf ⟨msgType, bProtoBuf, .msg header⟩ body :=
        fun found hfound => nomatch hfound
      rw [roundTrips_msg htype hselects bProtoBuf header]
      exact ⟨fun h => ⟨h, hsurvives⟩, fun h => h.1⟩
  | protoBuf header =>
      obtain ⟨hkind, hflag⟩ := hselects
      cases hflag
      rw [roundTrips_protoBuf htype hkind hbody (hsize header)]
      refine and_congr_right fun _ => ⟨fun h found hfound => ?_, fun h => h header rfl⟩
      cases hfound
      exact h
  | extended header =>
      obtain ⟨hkind, hflag⟩ := hselects
      cases hflag
      have hsurvives : PacketMsg.HeaderSurvives protoBuf ⟨msgType, false, .extended header⟩ body :=
        fun found hfound => nomatch hfound
      rw [roundTrips_extended htype hkind header]
      exact ⟨fun h => ⟨h, hsurvives⟩, fun h => h.1⟩

/-! ## A protobuf message with one field -/

/-- A protobuf message with one optional field: number 2, a varint of one byte. -/
structure SessionHeader where
  sessionID : Option UInt8
  deriving DecidableEq, Repr

/-- The field loop of protobuf's parser. The tag of the field is 16, the last value wins, and
input that ends in a field or holds anything else is refused. -/
def parseFields : List UInt8 → Option UInt8 → Option SessionHeader
  | [], sessionID => some ⟨sessionID⟩
  | [_], _ => none
  | tag :: value :: rest, _ =>
      if tag = 16 ∧ value.toNat < 128 then parseFields rest (some value) else none

/-- Protobuf for messages whose field has one byte. -/
def sessionProtoBuf : ProtoBuf SessionHeader where
  serialize header :=
    match header.sessionID with
    | none => []
    | some value => [16, value]
  parse bytes := parseFields bytes none

/-- Message numbers. -/
def steamMsg : EMsg :=
  { channelEncryptRequest := 1303, channelEncryptResponse := 1304, channelEncryptResult := 1305 }

/-- A message with an extended header and a body of three bytes makes the round trip. -/
theorem extended_roundTrips :
    RoundTrips steamMsg sessionProtoBuf
      ⟨5514, false, .extended ⟨36, 2, 1, 2, 239, 3, -1⟩⟩ [16, 5, 8] := by
  have hselects : PacketMsg.Selects steamMsg (⟨5514, false, .extended ⟨36, 2, 1, 2, 239, 3, -1⟩⟩ :
      PacketMsg SessionHeader) := ⟨rfl, rfl⟩
  refine (roundTrips_iff hselects (by decide) (fun header => ?_) (by decide)).mpr
    ⟨by decide, fun header hheader => nomatch hheader⟩
  obtain ⟨sessionID⟩ := header
  cases sessionID with
  | none => exact Nat.two_pow_pos 31
  | some value =>
      show 2 < 2 ^ 31
      decide

/-- A protobuf message whose body starts with a field of the same number: protobuf takes the field
of the body for the one of the header. -/
theorem protoBuf_body_changes_header :
    sessionProtoBuf.parse (sessionProtoBuf.serialize ⟨some 1⟩) = some ⟨some 1⟩ ∧
      sessionProtoBuf.parse (sessionProtoBuf.serialize ⟨some 1⟩ ++ [16, 5]) = some ⟨some 5⟩ ∧
      ¬ RoundTrips steamMsg sessionProtoBuf ⟨5514, true, .protoBuf ⟨some 1⟩⟩ [16, 5] := by
  have hparse : sessionProtoBuf.parse (sessionProtoBuf.serialize ⟨some 1⟩ ++ [16, 5]) =
      some ⟨some 5⟩ := by
    decide
  refine ⟨by decide, hparse, fun h => ?_⟩
  have hsame := ((roundTrips_protoBuf (by decide) rfl (by decide) (by decide)).mp h).2
  rw [hparse] at hsame
  cases hsame

end Utilpp.Steam
