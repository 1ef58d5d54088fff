import Utilpp.Lib.Transition
import Utilpp.Message.TryConsume

/-!
# The receiving side

`FMessageProcesser::OnRead` with both of its branches: datagrams, where every packet passes
the queue of its channel, and streams, where `readBuf` keeps the bytes of packets that are not
complete yet. The calls of `TriggerOnPacketRecvDelegates` and of `Disconnect` are recorded in
`events`. `Processer.step` is one call of `OnRead` as a step of a run.
-/

namespace Utilpp.Message

open Lib

/-- What `OnRead` does to the outside. -/
inductive Event where
  | onPacketRecv (packet : MessagePacket)
  | disconnect
  deriving DecidableEq, Repr

/-- The members of `FMessageProcesser` that `OnRead` uses, and the events so far. The constructor
leaves `channelsPolicy` empty. -/
structure Processer where
  connectionType : EMessageConnectionType
  readBuf : List UInt8 := []
  messageQueues : Fin maxChannal → List MessagePacket := fun _ => []
  channelsPolicy : List EMessagePolicy := []
  recvChannels : Counters := fun _ => 0
  events : List Event := []

/-- `session->Disconnect()`. -/
def Processer.disconnect (p : Processer) : Processer :=
  { p with events := p.events ++ [.disconnect] }

/-- `TriggerOnPacketRecvDelegates` for each packet of a list. -/
def Processer.trigger (p : Processer) (packets : List MessagePacket) : Processer :=
  { p with events := p.events ++ packets.map .onPacketRecv }

/-- `messageQueues[channel]` replaced. -/
def Processer.setQueue (p : Processer) (channel : Fin maxChannal) (queue : List MessagePacket) :
    Processer :=
  { p with messageQueues := Function.update p.messageQueues channel queue }

/-- The loops that push packets to the queues of their channels. -/
def Processer.pushPackets (p : Processer) : List MessagePacket → Except Stop Processer
  | [] => .ok p
  | packet :: rest =>
      if h : packet.channel < maxChannal then
        let queue := p.messageQueues ⟨packet.channel, h⟩
        (p.setQueue ⟨packet.channel, h⟩ (queue ++ [packet])).pushPackets rest
      else .error .badIndex

/-! ## The stream branch -/

/-- The loop that triggers and clears every queue, for the channels of a list. -/
def Processer.flushQueues (p : Processer) : List (Fin maxChannal) → Processer
  | [] => p
  | channel :: rest =>
      ((p.trigger (p.messageQueues channel)).setQueue channel []).flushQueues rest

/-- The branch for streams. `behind` is the memory behind the contents of `readBuf`. -/
def Processer.onReadStream (p : Processer) (data behind : List UInt8) : Except Stop Processer :=
  let readBuf := p.readBuf ++ data
  -- `readBuf.size()` is converted to `uint32_t`
  match tryConsume (readBuf ++ behind) (readBuf.length % 2 ^ 32) with
  | .error stop => .error stop
  | .ok result =>
      -- the bytes stay in `readBuf`
      if result.result ≠ .ok then .ok { p with readBuf := readBuf }.disconnect
      else if readBuf.length < result.consumptionLength then .error .badIterator
      else
        match { p with readBuf := readBuf.drop result.consumptionLength }.pushPackets
            result.messagePackets with
        | .error stop => .error stop
        | .ok p => .ok (p.flushQueues (List.finRange maxChannal))

/-! ## The datagram branch -/

/-- `queue.insert(++(itr.base()), packet)`, where `before` ends with `*itr` and the list is the
queue from `itr.base()` on. The place is one behind the element after `*itr`; there is none when
`*itr` is the last element. -/
def insertBehind (packet : MessagePacket) (before : List MessagePacket) :
    List MessagePacket → Except Stop (List MessagePacket)
  | [] => .error .badIterator
  | next :: behind => .ok (before ++ next :: packet :: behind)

/-- The reverse search for the place of a packet. The list is the queue from its back on; `after`
is what the search has passed, in queue order. -/
def insertReverse (packet : MessagePacket) :
    List MessagePacket → List MessagePacket → Except Stop (List MessagePacket)
  | [], after => .ok (packet :: after)
  | last :: front, after =>
      if last.index = packet.index then .ok ((last :: front).reverse ++ after)
      -- the base of a reverse iterator is one behind it already
      else if last.index < packet.index then insertBehind packet (last :: front).reverse after
      else insertReverse packet front (last :: after)

/-- Subtraction of `uint32_t` values. -/
def subUint32 (x y : Nat) : Nat := if y ≤ x then x - y else x + 2 ^ 32 - y

/-- The test of the receive window: the distance from the counter exceeds `MAX_CACHED_PACKET`. -/
def outOfWindow (index recvChannel : Nat) : Bool :=
  decide (maxCachedPacket < subUint32 index recvChannel)

/-- The branch of the packet loop for a channel that is not unordered. -/
def Processer.queueOrdered (p : Processer) (packet : MessagePacket) (channel : Fin maxChannal) :
    Except Stop Processer :=
  -- the packet is queued even when the session is disconnected
  let p := if outOfWindow packet.index (p.recvChannels channel) then p.disconnect else p
  match insertReverse packet (p.messageQueues channel).reverse [] with
  | .error stop => .error stop
  | .ok queue => .ok (p.setQueue channel queue)

/-- The body of the packet loop. `all` are all packets of the datagram and `rest` those that
follow: the branch for an unordered channel moves every packet, so that a packet that follows is
a null pointer. -/
def Processer.queuePacket (p : Processer) (all : List MessagePacket) (packet : MessagePacket)
    (rest : List MessagePacket) : Except Stop Processer :=
  if h : packet.channel < maxChannal then
    match p.channelsPolicy[packet.channel]? with
    | none => .error .badIndex
    | some policy =>
        if policy ≠ .unordered then p.queueOrdered packet ⟨packet.channel, h⟩
        else
          match p.pushPackets all with
          | .error stop => .error stop
          | .ok p => if rest = [] then .ok p else .error .nullDeref
  else .error .badIndex

/-- The loop over the packets of a datagram. -/
def Processer.queuePackets (p : Processer) (all : List MessagePacket) :
    List MessagePacket → Except Stop Processer
  | [] => .ok p
  | packet :: rest =>
      match p.queuePacket all packet rest with
      | .error stop => .error stop
      | .ok p => p.queuePackets all rest

/-- The loop that delivers from the front of the queue of an ordered channel: the packets
delivered, the queue left and the counter left. -/
def drainQueue (recvChannel : Nat) :
    List MessagePacket → List MessagePacket × List MessagePacket × Nat
  | [] => ([], [], recvChannel)
  | packet :: rest =>
      if packet.index ≠ recvChannel then ([], packet :: rest, recvChannel)
      else
        let drained := drainQueue ((recvChannel + 1) % 2 ^ 32) rest
        (packet :: drained.1, drained.2)

/-- Delivers what is due from the front of the queue of an ordered channel. -/
def Processer.drainOrdered (p : Processer) (channel : Fin maxChannal) : Processer :=
  let drained := drainQueue (p.recvChannels channel) (p.messageQueues channel)
  { (p.trigger drained.1).setQueue channel drained.2.1 with
    recvChannels := Function.update p.recvChannels channel drained.2.2 }

/-- The loop over all channels that delivers what is due. -/
def Processer.drainQueues (p : Processer) : List (Fin maxChannal) → Except Stop Processer
  | [] => .ok p
  | channel :: rest =>
      match p.channelsPolicy[channel.val]? with
      | none => .error .badIndex
      | some policy =>
          if policy = .unordered then
            ((p.trigger (p.messageQueues channel)).setQueue channel []).drainQueues rest
          else (p.drainOrdered channel).drainQueues rest

/-- The branch for datagrams. `behind` is the memory behind the datagram. -/
def Processer.onReadDatagram (p : Processer) (data behind : List UInt8) : Except Stop Processer :=
  match tryConsume (data ++ behind) (data.length % 2 ^ 32) with
  | .error stop => .error stop
  | .ok result =>
      -- a datagram has to be complete packets
      if result.consumptionLength ≠ data.length then .ok p.disconnect
      else
        match p.queuePackets result.messagePackets result.messagePackets with
        | .error stop => .error stop
        | .ok p => p.drainQueues (List.finRange maxChannal)

/-! ## Runs -/

/-- One call of `OnRead`: the bytes received and the memory behind the bytes that are parsed. -/
structure ReadCall where
  data : List UInt8
  behind : List UInt8

/-- `FMessageProcesser::OnRead`. -/
def Processer.onRead (p : Processer) (call : ReadCall) : Except Stop Processer :=
  if p.connectionType = .udp then p.onReadDatagram call.data call.behind
  else p.onReadStream call.data call.behind

/-- `OnRead` as a step of a run. -/
def Processer.step (p : Processer) (call : ReadCall) : Option Processer :=
  (p.onRead call).toOption

theorem eq_ok_of_toOption {ε α : Type} {x : Except ε α} {value : α}
    (h : x.toOption = some value) : x = .ok value := by
  cases x with
  | error e => cases h
  | ok found =>
      cases h
      rfl

/-- The packet of an event of this channel. -/
def Event.onChannel (channel : Nat) : Event → Option MessagePacket
  | .onPacketRecv packet => if packet.channel = channel then some packet else none
  | .disconnect => none

/-- The packets of a channel that have been handed to `OnPacketRecv`, in order. -/
def Processer.delivered (p : Processer) (channel : Nat) : List MessagePacket :=
  p.events.filterMap (Event.onChannel channel)

end Utilpp.Message
