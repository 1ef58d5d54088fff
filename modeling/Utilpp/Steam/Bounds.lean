import Utilpp.Steam.RoundTrip

/-!
# The bounds of a parsed Steam packet

When the success of `FSteamPacketMsg::Parse` means that the header was there and that the view of
the body lies in the data (`parse_bounds_iff`). None of the reads of `Parse` is checked: on short
data the fields that are missing are zero, and the length of a protobuf header is taken from the
packet as it is.
-/

namespace Utilpp.Steam

open Lib

variable {CMsgProtoBufHeader : Type}

/-! ## Complete headers -/

/-- A `MsgHeader_t` read from enough bytes writes them. -/
theorem MsgHeader.write_read {stream : SpanStream} (h : 16 ≤ stream.rest.length) :
    stream.rest = (MsgHeader.read stream).1.write ++ (MsgHeader.read stream).2.rest ∧
      (MsgHeader.read stream).2.readLen = stream.readLen + 16 := by
  obtain ⟨htarget, htargetLt, htargetLen⟩ := stream.read_complete (n := 8) (by omega)
  have hcount := stream.read_count 8
  obtain ⟨hsource, hsourceLt, hsourceLen⟩ :=
    (stream.read 8).2.read_complete (n := 8) (by omega)
  simp only [MsgHeader.read, MsgHeader.write]
  rw [UInt64.toNat_ofNat_of_lt' htargetLt, UInt64.toNat_ofNat_of_lt' hsourceLt,
    List.append_assoc, ← hsource, ← htarget]
  exact ⟨rfl, by omega⟩

/-- The same for an `ExtendedClientMsgHeader_t`. -/
theorem ExtendedClientMsgHeader.write_read {stream : SpanStream}
    (h : 32 ≤ stream.rest.length) :
    stream.rest = (ExtendedClientMsgHeader.read stream).1.write ++
        (ExtendedClientMsgHeader.read stream).2.rest ∧
      (ExtendedClientMsgHeader.read stream).2.readLen = stream.readLen + 32 := by
  simp only [ExtendedClientMsgHeader.read, ExtendedClientMsgHeader.write]
  obtain ⟨hsize, hsizeLt, hsizeLen⟩ := stream.read_complete (n := 1) (by omega)
  have hsizeCount := stream.read_count 1
  generalize stream.read 1 = headerSize at *
  obtain ⟨hversion, hversionLt, hversionLen⟩ := headerSize.2.read_complete (n := 2) (by omega)
  have hversionCount := headerSize.2.read_count 2
  generalize headerSize.2.read 2 = headerVersion at *
  obtain ⟨htarget, htargetLt, htargetLen⟩ := headerVersion.2.read_complete (n := 8) (by omega)
  have htargetCount := headerVersion.2.read_count 8
  generalize headerVersion.2.read 8 = targetJobID at *
  obtain ⟨hsource, hsourceLt, hsourceLen⟩ := targetJobID.2.read_complete (n := 8) (by omega)
  have hsourceCount := targetJobID.2.read_count 8
  generalize targetJobID.2.read 8 = sourceJobID at *
  obtain ⟨hcanary, hcanaryLt, hcanaryLen⟩ := sourceJobID.2.read_complete (n := 1) (by omega)
  have hcanaryCount := sourceJobID.2.read_count 1
  generalize sourceJobID.2.read 1 = headerCanary at *
  obtain ⟨hsteam, hsteamLt, hsteamLen⟩ := headerCanary.2.read_complete (n := 8) (by omega)
  have hsteamCount := headerCanary.2.read_count 8
  generalize headerCanary.2.read 8 = steamID at *
  obtain ⟨hsession, hsessionLt, hsessionLen⟩ := steamID.2.read_complete (n := 4) (by omega)
  generalize steamID.2.read 4 = sessionID at *
  rw [UInt8.toNat_ofNat_of_lt' hsizeLt, UInt16.toNat_ofNat_of_lt' hversionLt,
    UInt64.toNat_ofNat_of_lt' htargetLt, UInt64.toNat_ofNat_of_lt' hsourceLt,
    UInt8.toNat_ofNat_of_lt' hcanaryLt, UInt64.toNat_ofNat_of_lt' hsteamLt,
    UInt32.toUInt32_toInt32, UInt32.toNat_ofNat_of_lt' hsessionLt]
  simp only [List.append_assoc]
  rw [← hsession, ← hsteam, ← hcanary, ← hsource, ← htarget, ← hversion, ← hsize]
  exact ⟨rfl, by omega⟩

/-! ## What success means -/

/-- The header of the message was in the data: its fixed fields behind the message type, or the
length of the protobuf header and as many bytes as it says. -/
def HeaderPresent (data : List UInt8) (msg : PacketMsg CMsgProtoBufHeader) : Prop :=
  match msg.header with
  | .msg header => ∃ word body, word.length = 4 ∧ data = word ++ header.write ++ body
  | .extended header => ∃ word body, word.length = 4 ∧ data = word ++ header.write ++ body
  | .protoBuf _ => 8 ≤ data.length ∧
      0 ≤ Int.bmod (ofBytes ((data.drop 4).take 4)) (2 ^ 32) ∧
      8 + Int.bmod (ofBytes ((data.drop 4).take 4)) (2 ^ 32) ≤ data.length

/-- A success of `Parse` on `len` bytes of data means that the header was in them and that the
view of the body lies inside. -/
def InBounds (data : List UInt8) (len : Int) (parsed : Parsed CMsgProtoBufHeader) : Prop :=
  match parsed with
  | .undefined => False
  | .failed => True
  | .parsed msg view => HeaderPresent (data.take len.toNat) msg ∧
      (view.offset + view.length : Int) ≤ len

/-- The data are too short for a message type, or they have the header that the message type
selects, or protobuf rejects what is in the place of its header. -/
def Complete (emsg : EMsg) (protoBuf : ProtoBuf CMsgProtoBufHeader) (data : List UInt8)
    (len : Int) : Prop :=
  let word := UInt32.ofNat (ofBytes (data.take 4))
  let headerLen := Int.bmod (ofBytes ((data.drop 4).take 4)) (2 ^ 32)
  0 ≤ len ∧ (len < 4 ∨ len ≤ data.length ∧
    if emsg.channelEncrypt (word &&& ~~~protoMask) then 20 ≤ len
    else if word &&& protoMask ≠ 0 then
      8 ≤ len ∧ (protoBuf.parse ((data.take len.toNat).drop 8) = none ∨
        0 ≤ headerLen ∧ 8 + headerLen ≤ len)
    else 36 ≤ len)

/-- The view behind as many bytes as were read ends with the data. -/
theorem bodyView_end {len readLen : Int} (hlow : 0 ≤ readLen) (hle : readLen ≤ len)
    (hlen : len < 2 ^ 31) :
    ((bodyView len readLen).offset + (bodyView len readLen).length : Int) = len := by
  simp only [bodyView]
  omega

/-- A header of `n` bytes behind the message type. -/
theorem fixed_bounds {bytes written rest : List UInt8} {len : Int} {n readLen : Nat}
    (hbytes : (bytes.length : Int) = len) (hlen : len < 2 ^ 31) (hwritten : written.length = n)
    (hread : n ≤ (bytes.drop 4).length → bytes.drop 4 = written ++ rest ∧ readLen = 4 + n) :
    ((∃ word body : List UInt8, word.length = 4 ∧ bytes = word ++ written ++ body) ∧
      ((bodyView len readLen).offset + (bodyView len readLen).length : Int) ≤ len) ↔
      4 + n ≤ len := by
  constructor
  · rintro ⟨⟨word, body, hword, rfl⟩, -⟩
    simp only [List.length_append, hword, hwritten] at hbytes
    omega
  · intro hle
    obtain ⟨hrest, hreadLen⟩ := hread (by rw [List.length_drop]; omega)
    refine ⟨⟨bytes.take 4, rest, List.length_take_of_le (by omega), ?_⟩, ?_⟩
    · rw [List.append_assoc, ← hrest, List.take_append_drop]
    · rw [hreadLen, bodyView_end (by omega) (by omega) hlen]

variable {emsg : EMsg} {protoBuf : ProtoBuf CMsgProtoBufHeader} {data : List UInt8} {len : Int}

/-- `Parse` of enough data. -/
theorem parse_eq (hfour : 4 ≤ len) (hlen : len ≤ data.length) :
    parse emsg protoBuf data len =
      parseHeader emsg protoBuf (.ofNat (ofBytes (data.take 4))) len
        ⟨(data.take len.toNat).drop 4, 4⟩ := by
  have htake : (data.take len.toNat).take 4 = data.take 4 := by
    rw [List.take_take, Nat.min_eq_left (by omega)]
  have hfour' : (data.take 4).length = 4 := List.length_take_of_le (by omega)
  rw [parse, if_neg (by omega), if_neg (by omega)]
  simp only [SpanStream.read, htake, hfour']

/-- The branch for `CMsgProtoBufHeader`. -/
theorem parseProtoBuf_bounds (msgType : UInt32) (hfour : 4 ≤ len) (hlen : len ≤ data.length)
    (hshort : len < 2 ^ 31) :
    InBounds data len
        (parseProtoBuf protoBuf msgType len ⟨(data.take len.toNat).drop 4, 4⟩) ↔
      8 ≤ len ∧ (protoBuf.parse ((data.take len.toNat).drop 8) = none ∨
        0 ≤ Int.bmod (ofBytes ((data.drop 4).take 4)) (2 ^ 32) ∧
          8 + Int.bmod (ofBytes ((data.drop 4).take 4)) (2 ^ 32) ≤ len) := by
  have hbytes : ((data.take len.toNat).length : Int) = len := by
    rw [List.length_take]
    omega
  have hdrop : ((data.take len.toNat).drop 4).length = len.toNat - 4 := by
    rw [List.length_drop]
    omega
  unfold parseProtoBuf
  dsimp only
  split
  · rename_i hless
    exact ⟨False.elim, fun h => absurd h.1 (by omega)⟩
  · rename_i hless
    have height : 8 ≤ len := by omega
    have hfield : ((data.take len.toNat).drop 4).take 4 = (data.drop 4).take 4 := by
      rw [List.drop_take, List.take_take, Nat.min_eq_left (by omega)]
    have hcount : (((data.take len.toNat).drop 4).take 4).length = 4 :=
      List.length_take_of_le (by omega)
    simp only [SpanStream.read, List.drop_drop, hfield] at hcount ⊢
    rw [hcount]
    cases hparse : protoBuf.parse ((data.take len.toNat).drop 8) with
    | none => exact ⟨fun _ => ⟨height, .inl rfl⟩, fun _ => trivial⟩
    | some header =>
        simp only [InBounds, HeaderPresent, hfield]
        generalize Int.bmod (ofBytes ((data.drop 4).take 4)) (2 ^ 32) = headerLen
        constructor
        · rintro ⟨⟨-, hlow, hhigh⟩, -⟩
          exact ⟨height, .inr ⟨hlow, by omega⟩⟩
        · rintro ⟨-, hreject | ⟨hlow, hhigh⟩⟩
          · cases hreject
          · refine ⟨⟨by omega, hlow, by omega⟩, Int.le_of_eq ?_⟩
            exact bodyView_end (by omega) (by omega) hshort

/-- `Parse` succeeds within bounds exactly when the data are complete. -/
theorem parse_bounds_iff (emsg : EMsg) (protoBuf : ProtoBuf CMsgProtoBufHeader)
    (data : List UInt8) (len : Int32) :
    InBounds data len.toInt (parse emsg protoBuf data len.toInt) ↔
      Complete emsg protoBuf data len.toInt := by
  have hshort : len.toInt < 2 ^ 31 := len.toInt_lt
  generalize len.toInt = len at *
  unfold Complete
  by_cases hneg : len < 0
  · rw [parse, if_neg (by omega), if_pos (.inl hneg)]
    exact ⟨False.elim, fun h => absurd h.1 (by omega)⟩
  by_cases hfour : len < 4
  · rw [parse, if_pos (by omega)]
    exact ⟨fun _ => ⟨by omega, .inl hfour⟩, fun _ => trivial⟩
  by_cases hlen : (data.length : Int) < len
  · rw [parse, if_neg (by omega), if_pos (.inr hlen)]
    exact ⟨False.elim, fun h => by omega⟩
  have hbytes : ((data.take len.toNat).length : Int) = len := by
    rw [List.length_take]
    omega
  rw [parse_eq (by omega) (by omega), parseHeader]
  generalize UInt32.ofNat (ofBytes (data.take 4)) = word
  have hcomplete : ∀ P : Prop, 0 ≤ len ∧ (len < 4 ∨ len ≤ data.length ∧ P) ↔ P := fun P =>
    ⟨fun h => (h.2.resolve_left hfour).2, fun h => ⟨by omega, .inr ⟨by omega, h⟩⟩⟩
  simp only [hcomplete]
  split
  · exact fixed_bounds (n := 16) hbytes hshort (MsgHeader.length_write _)
      (@MsgHeader.write_read ⟨(data.take len.toNat).drop 4, 4⟩)
  · split
    · exact parseProtoBuf_bounds _ (by omega) (by omega) hshort
    · exact fixed_bounds (n := 32) hbytes hshort (ExtendedClientMsgHeader.length_write _)
        (@ExtendedClientMsgHeader.write_read ⟨(data.take len.toNat).drop 4, 4⟩)

/-- Four bytes without the mask are a success, but no header. -/
theorem not_parse_bounds :
    ¬ ∀ (emsg : EMsg) (protoBuf : ProtoBuf Unit) (data : List UInt8),
      InBounds data data.length (parse emsg protoBuf data data.length) := by
  intro h
  obtain ⟨⟨word, body, hword, hdata⟩, -⟩ :=
    h ⟨1303, 1304, 1305⟩ ⟨fun _ => [], fun _ => some ()⟩ [1, 0, 0, 0]
  have hlength := congrArg List.length hdata
  simp only [List.length_append, ExtendedClientMsgHeader.length_write, hword, List.length_take,
    List.length_cons, List.length_nil] at hlength
  omega

end Utilpp.Steam
