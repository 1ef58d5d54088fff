import Utilpp.Lib.LittleEndian

/-!
# Steam packets

`FSteamPacketMsg` with its three headers, `Parse` and `SerializeToOstream`. Two things come
from outside: the message numbers of the generated `EMsg` and the protobuf message
`CMsgProtoBufHeader` with its serialiser and its parser. They are parameters.
-/

namespace Utilpp.Steam

open Lib

/-- The numbers of `EMsg` that select `MsgHeader_t`. -/
structure EMsg where
  channelEncryptRequest : UInt32
  channelEncryptResponse : UInt32
  channelEncryptResult : UInt32

/-- The `case` labels for `MsgHeader_t`. -/
def EMsg.channelEncrypt (emsg : EMsg) (msgType : UInt32) : Bool :=
  msgType = emsg.channelEncryptRequest || msgType = emsg.channelEncryptResponse ||
    msgType = emsg.channelEncryptResult

/-- Protobuf's code for `CMsgProtoBufHeader`: `SerializeToOstream` and, for all the bytes left in
a stream, `ParseFromIstream`. -/
structure ProtoBuf (CMsgProtoBufHeader : Type) where
  serialize : CMsgProtoBufHeader → List UInt8
  parse : List UInt8 → Option CMsgProtoBufHeader

/-- `MsgHeader_t`. -/
structure MsgHeader where
  targetJobID : UInt64
  sourceJobID : UInt64
  deriving DecidableEq, Repr

/-- `ExtendedClientMsgHeader_t`. -/
structure ExtendedClientMsgHeader where
  headerSize : UInt8
  headerVersion : UInt16
  targetJobID : UInt64
  sourceJobID : UInt64
  headerCanary : UInt8
  steamID : UInt64
  sessionID : Int32
  deriving DecidableEq, Repr

/-- The variant `Header`. -/
inductive Header (CMsgProtoBufHeader : Type) where
  | protoBuf (header : CMsgProtoBufHeader)
  | msg (header : MsgHeader)
  | extended (header : ExtendedClientMsgHeader)

/-- `FSteamPacketMsg`. -/
structure PacketMsg (CMsgProtoBufHeader : Type) where
  msgType : UInt32
  bProtoBuf : Bool
  header : Header CMsgProtoBufHeader

/-- `ProtoMask`. -/
def protoMask : UInt32 := 0x80000000

variable {CMsgProtoBufHeader : Type}

/-! ## Serialising -/

/-- The fields of `MsgHeader_t` in the order in which they are written. -/
def MsgHeader.write (header : MsgHeader) : List UInt8 :=
  toBytes 8 header.targetJobID.toNat ++ toBytes 8 header.sourceJobID.toNat

/-- The fields of `ExtendedClientMsgHeader_t` in the order in which they are written. -/
def ExtendedClientMsgHeader.write (header : ExtendedClientMsgHeader) : List UInt8 :=
  toBytes 1 header.headerSize.toNat ++ toBytes 2 header.headerVersion.toNat ++
    toBytes 8 header.targetJobID.toNat ++ toBytes 8 header.sourceJobID.toNat ++
    toBytes 1 header.headerCanary.toNat ++ toBytes 8 header.steamID.toNat ++
    toBytes 4 header.sessionID.toUInt32.toNat

/-- The length and the bytes of the protobuf header; `HeaderLen` is an `int32_t`. -/
def ProtoBuf.write (protoBuf : ProtoBuf CMsgProtoBufHeader) (header : CMsgProtoBufHeader) :
    List UInt8 :=
  toBytes 4 ((protoBuf.serialize header).length % 2 ^ 32) ++ protoBuf.serialize header

/-- `FSteamPacketMsg::SerializeToOstream` with a body of `bodyLen` bytes; `none` is the result
`false`. `Buf` is reserved for all that is written, so that nothing is cut off. -/
def PacketMsg.serializeToOstream (emsg : EMsg) (protoBuf : ProtoBuf CMsgProtoBufHeader)
    (msg : PacketMsg CMsgProtoBufHeader) (body : List UInt8) : Option (List UInt8) :=
  if emsg.channelEncrypt msg.msgType then
    match msg.header with
    | .msg header => some (toBytes 4 msg.msgType.toNat ++ header.write ++ body)
    | _ => none
  else if msg.bProtoBuf then
    match msg.header with
    | .protoBuf header =>
        some (toBytes 4 (msg.msgType ||| protoMask).toNat ++ protoBuf.write header ++ body)
    | _ => none
  else
    match msg.header with
    | .extended header => some (toBytes 4 msg.msgType.toNat ++ header.write ++ body)
    | _ => none

/-! ## Parsing -/

/-- `MsgHeader_t` read from a stream. -/
def MsgHeader.read (stream : SpanStream) : MsgHeader × SpanStream :=
  let targetJobID := stream.read 8
  let sourceJobID := targetJobID.2.read 8
  ({ targetJobID := .ofNat targetJobID.1, sourceJobID := .ofNat sourceJobID.1 }, sourceJobID.2)

/-- `ExtendedClientMsgHeader_t` read from a stream. -/
def ExtendedClientMsgHeader.read (stream : SpanStream) : ExtendedClientMsgHeader × SpanStream :=
  let headerSize := stream.read 1
  let headerVersion := headerSize.2.read 2
  let targetJobID := headerVersion.2.read 8
  let sourceJobID := targetJobID.2.read 8
  let headerCanary := sourceJobID.2.read 1
  let steamID := headerCanary.2.read 8
  let sessionID := steamID.2.read 4
  ({ headerSize := .ofNat headerSize.1
     headerVersion := .ofNat headerVersion.1
     targetJobID := .ofNat targetJobID.1
     sourceJobID := .ofNat sourceJobID.1
     headerCanary := .ofNat headerCanary.1
     steamID := .ofNat steamID.1
     sessionID := (UInt32.ofNat sessionID.1).toInt32 }, sessionID.2)

/-- A `std::string_view` into the data. -/
structure View where
  offset : Nat
  length : Nat
  deriving DecidableEq, Repr

/-- The bytes of a view; a view that leaves the data has none. -/
def View.bytes (view : View) (data : List UInt8) : Option (List UInt8) :=
  if view.offset + view.length ≤ data.length then some ((data.drop view.offset).take view.length)
  else none

/-- How `Parse` ends: undefined behaviour, the result `false`, or a message and the view of its
body. -/
inductive Parsed (CMsgProtoBufHeader : Type) where
  | undefined
  | failed
  | parsed (msg : PacketMsg CMsgProtoBufHeader) (body : View)

/-- `std::string_view(data + readLen, len - readLen)`, with `size_t` subtraction. -/
def bodyView (len readLen : Int) : View :=
  { offset := (readLen % 2 ^ 64).toNat, length := ((len - readLen) % 2 ^ 64).toNat }

/-- The branch for `CMsgProtoBufHeader`. The whole rest of the stream is given to protobuf, and
`ProtoBufHeaderLen`, which has no initial value, is added to `readLen`. -/
def parseProtoBuf (protoBuf : ProtoBuf CMsgProtoBufHeader) (msgType : UInt32) (len : Int)
    (stream : SpanStream) : Parsed CMsgProtoBufHeader :=
  if stream.rest.length < 4 then .undefined
  else
    let headerLen := stream.read 4
    match protoBuf.parse headerLen.2.rest with
    | none => .failed
    | some header =>
        .parsed { msgType := msgType, bProtoBuf := true, header := .protoBuf header }
          -- only the view of the body looks at the length that was read
          (bodyView len (headerLen.2.readLen + Int.bmod headerLen.1 (2 ^ 32)))

/-- `Parse` behind the message type. -/
def parseHeader (emsg : EMsg) (protoBuf : ProtoBuf CMsgProtoBufHeader) (word : UInt32) (len : Int)
    (stream : SpanStream) : Parsed CMsgProtoBufHeader :=
  let bProtoBuf := word &&& protoMask ≠ 0
  let msgType := word &&& ~~~protoMask
  if emsg.channelEncrypt msgType then
    let header := MsgHeader.read stream
    .parsed { msgType := msgType, bProtoBuf := bProtoBuf, header := .msg header.1 }
      (bodyView len header.2.readLen)
  else if bProtoBuf then parseProtoBuf protoBuf msgType len stream
  else
    let header := ExtendedClientMsgHeader.read stream
    .parsed { msgType := msgType, bProtoBuf := false, header := .extended header.1 }
      (bodyView len header.2.readLen)

/-- `FSteamPacketMsg::Parse(data, len)`. `len` is compared with a `size_t`, so that a negative
length passes the test and makes a span that leaves the data. -/
def parse (emsg : EMsg) (protoBuf : ProtoBuf CMsgProtoBufHeader) (data : List UInt8) (len : Int) :
    Parsed CMsgProtoBufHeader :=
  if 0 ≤ len ∧ len < 4 then .failed
  else if len < 0 ∨ (data.length : Int) < len then .undefined
  else
    let word := (SpanStream.mk (data.take len.toNat) 0).read 4
    parseHeader emsg protoBuf (.ofNat word.1) len word.2

end Utilpp.Steam
