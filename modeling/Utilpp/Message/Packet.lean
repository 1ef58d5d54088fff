import Utilpp.Lib.CString
import Mathlib.Logic.Function.Basic

/-!
# Packets and the sending side

The data model of `message_processer.h` and the sender `FMessageProcesser::BuildPacket`.
A packet is the start line `V1.0`, header lines `Key:Value`, an empty line and the body;
every line ends with `\r\n`. Fields of fixed width are natural numbers below their bound.
The vectors that the constructor sizes to `MAX_CHANNAL` are functions on `Fin maxChannal`.
-/

namespace Utilpp.Message

open Lib

/-- `MAX_CHANNAL`, the number of channels. -/
def maxChannal : Nat := 16

/-- `MAX_CACHED_PACKET`, the width of the receive window of an ordered channel. -/
def maxCachedPacket : Nat := 100

/-- `MessageBegin`. -/
def messageBegin : List UInt8 := ascii ['V', '1', '.', '0']

/-- `MessageHeaderLength`. -/
def messageHeaderLength : List UInt8 := ascii ['L', 'e', 'n', 'g', 't', 'h']

/-- `MessageHeaderIndex`. -/
def messageHeaderIndex : List UInt8 := ascii ['I', 'n', 'd', 'e', 'x']

/-- `MessageHeaderChannel`. -/
def messageHeaderChannel : List UInt8 := ascii ['C', 'h', 'a', 'n', 'n', 'e', 'l']

/-- `MessageHeaderSeparator`. -/
def messageHeaderSeparator : List UInt8 := ascii [':']

/-- `MessageEnd`, the end of every line. -/
def messageEnd : List UInt8 := ascii ['\r', '\n']

/-- `EMessagePolicy`. -/
inductive EMessagePolicy where
  | unordered
  | ordered
  | stream
  deriving DecidableEq, Repr

/-- `EMessageHeader`. -/
inductive EMessageHeader where
  | contentLength
  | channel
  | index
  | custom
  deriving DecidableEq, Repr

/-- `EMessageError`. -/
inductive EMessageError where
  | ok
  | parseError
  | internalError
  deriving DecidableEq, Repr

/-- `EMessageConnectionType`. -/
inductive EMessageConnectionType where
  | tcp
  | ipc
  | udp
  deriving DecidableEq, Repr

/-- `MessagePacket_t`. `std::make_unique` value-initialises it, so every field starts at zero. -/
structure MessagePacket where
  messageContent : List UInt8 := []
  contentLength : Nat := 0
  channel : Nat := 0
  index : Nat := 0
  deriving DecidableEq, Repr

/-- `FMessageProcesser::mapHeader`. -/
def mapHeader (key : List UInt8) : Option EMessageHeader :=
  if key = messageHeaderLength then some .contentLength
  else if key = messageHeaderIndex then some .index
  else if key = messageHeaderChannel then some .channel
  else none

/-- The `switch` of `TryConsume` that stores a header value; the `int` is converted to the
unsigned type of its field. -/
def MessagePacket.setHeader (packet : MessagePacket) (value : Int) : EMessageHeader → MessagePacket
  | .contentLength => { packet with contentLength := (value % 2 ^ 32).toNat }
  | .channel => { packet with channel := (value % 2 ^ 8).toNat }
  | .index => { packet with index := (value % 2 ^ 32).toNat }
  | .custom => packet

/-- `FMessageProcesser::AddHeader`. -/
def addHeader (buf key value : List UInt8) : List UInt8 :=
  buf ++ key ++ messageHeaderSeparator ++ value ++ messageEnd

/-- The `uint32_t` counters of the channels. -/
abbrev Counters := Fin maxChannal → Nat

/-- `FMessageProcesser::BuildPacket`, with the counters it leaves. -/
def buildPacket (sendChannels : Counters) (data : List UInt8) (channel : Fin maxChannal) :
    List UInt8 × Counters :=
  let buff := messageBegin ++ messageEnd
  let buff :=
    if 0 < channel.val then addHeader buff messageHeaderChannel (decimal channel) else buff
  -- the counter is printed as a `uint32_t`
  let buff := addHeader buff messageHeaderIndex (decimal (sendChannels channel))
  let sendChannels :=
    Function.update sendChannels channel ((sendChannels channel + 1) % 2 ^ 32)
  let buff :=
    if 0 < data.length then addHeader buff messageHeaderLength (decimal data.length) else buff
  let buff := buff ++ messageEnd
  (if 0 < data.length then buff ++ data else buff, sendChannels)

/-- One call of `SendContent`: a channel and a body. -/
structure OutMessage where
  channel : Fin maxChannal
  body : List UInt8

/-- The packets emitted for a sequence of messages, in sending order. -/
def buildPackets : Counters → List OutMessage → List (List UInt8)
  | _, [] => []
  | sendChannels, message :: rest =>
      let built := buildPacket sendChannels message.body message.channel
      built.1 :: buildPackets built.2 rest

/-- What a receiver should make of each message: its body, length, channel and index. -/
def sentPackets : Counters → List OutMessage → List MessagePacket
  | _, [] => []
  | sendChannels, message :: rest =>
      { messageContent := message.body
        contentLength := message.body.length
        channel := message.channel
        index := sendChannels message.channel } ::
        sentPackets (buildPacket sendChannels message.body message.channel).2 rest

/-- The messages keep to the sizes that `TryConsume` can read back: bodies shorter than
`2 ^ 31` bytes and send counters that stay below `2 ^ 31`. -/
def Sendable : Counters → List OutMessage → Prop
  | _, [] => True
  | sendChannels, message :: rest =>
      message.body.length < 2 ^ 31 ∧ sendChannels message.channel < 2 ^ 31 ∧
        Sendable (buildPacket sendChannels message.body message.channel).2 rest

end Utilpp.Message
