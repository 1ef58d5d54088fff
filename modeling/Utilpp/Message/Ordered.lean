import Utilpp.Message.Bounded
import Utilpp.Message.Build
import Utilpp.Message.Processer

/-!
# An ordered channel over datagrams

Datagrams of one ordered channel arrive one at a time, in any order and with duplicates. The
place of a packet in the queue comes from a reverse search that inserts one element too far, and
a duplicate of a delivered packet fails the test of the receive window. `ordered_iff_lucky` says
for which arrivals the channel keeps its promises all the same: exactly when every arriving
packet is either new and below every packet that waits in the queue, or is waiting already.
-/

namespace Utilpp.Message

open Lib

/-! ## The queue of an ordered channel -/

section Queue

variable {packet : Nat → MessagePacket} {waiting : List Nat} {a k : Nat}

/-- The queue that holds the packets with these indices. -/
def queueOf (packet : Nat → MessagePacket) (waiting : List Nat) : List MessagePacket :=
  waiting.map packet

/-- The search passes over the packets with a greater index. -/
theorem insertReverse_pass (hindex : ∀ i, (packet i).index = i) {greater : List Nat}
    (h : ∀ i ∈ greater, a < i) (front after : List MessagePacket) :
    insertReverse (packet a) ((queueOf packet greater).reverse ++ front) after =
      insertReverse (packet a) front (queueOf packet greater ++ after) := by
  induction greater using List.reverseRecOn generalizing after with
  | nil => rfl
  | append_singleton greater i ih =>
      have hi : a < i := h i (by simp)
      have hbytes : (queueOf packet (greater ++ [i])).reverse ++ front =
          packet i :: ((queueOf packet greater).reverse ++ front) := by
        simp [queueOf]
      rw [hbytes, insertReverse, hindex, hindex, if_neg (by omega), if_neg (by omega),
        ih (fun j hj => h j (by simp [hj]))]
      simp [queueOf]

/-- A packet below the whole queue is inserted at its front. -/
theorem insertReverse_front (hindex : ∀ i, (packet i).index = i) (h : ∀ i ∈ waiting, a < i) :
    insertReverse (packet a) (queueOf packet waiting).reverse [] =
      .ok (queueOf packet (a :: waiting)) := by
  have hpass := insertReverse_pass hindex h [] []
  rw [List.append_nil, List.append_nil] at hpass
  rw [hpass]
  rfl

/-- A packet that is in the queue is not inserted again. -/
theorem insertReverse_mem (hindex : ∀ i, (packet i).index = i) (hsorted : waiting.Pairwise (· < ·))
    (h : a ∈ waiting) :
    insertReverse (packet a) (queueOf packet waiting).reverse [] =
      .ok (queueOf packet waiting) := by
  obtain ⟨before, after, rfl⟩ := List.append_of_mem h
  have hafter : ∀ i ∈ after, a < i := by
    intro i hi
    exact (List.pairwise_cons.mp (List.pairwise_append.mp hsorted).2.1).1 i hi
  have hbytes : (queueOf packet (before ++ a :: after)).reverse =
      (queueOf packet after).reverse ++ packet a :: (queueOf packet before).reverse := by
    simp [queueOf]
  rw [hbytes, insertReverse_pass hindex hafter, insertReverse, if_pos rfl]
  simp [queueOf]

/-- The last number below `a` in a list with such a number. -/
theorem exists_last_below (hnew : a ∉ waiting) {b : Nat} (hb : b ∈ waiting) (hlt : b < a) :
    ∃ before e after, waiting = before ++ e :: after ∧ e < a ∧ ∀ i ∈ after, a < i := by
  induction waiting generalizing b with
  | nil => cases hb
  | cons i waiting ih =>
      simp only [List.mem_cons, not_or] at hnew
      by_cases hlater : ∃ c ∈ waiting, c < a
      · obtain ⟨c, hc, hca⟩ := hlater
        obtain ⟨before, e, after, rfl, he, hafter⟩ := ih hnew.2 hc hca
        exact ⟨i :: before, e, after, rfl, he, hafter⟩
      · have hi : i < a := by
          rcases List.mem_cons.mp hb with rfl | htail
          · exact hlt
          · exact absurd ⟨b, htail, hlt⟩ hlater
        refine ⟨[], i, waiting, rfl, hi, fun j hj => ?_⟩
        have hja : j ≠ a := by
          rintro rfl
          exact hnew.2 hj
        have hge : ¬ j < a := fun hlt => hlater ⟨j, hj, hlt⟩
        omega

/-- A new packet above some packet of the queue has no place behind the last element, or is
inserted behind a packet with a greater index. -/
theorem insertReverse_misplaced (hindex : ∀ i, (packet i).index = i) (hnew : a ∉ waiting)
    {b : Nat} (hb : b ∈ waiting) (hlt : b < a) :
    insertReverse (packet a) (queueOf packet waiting).reverse [] = .error .badIterator ∨
      ∃ first front next behind, first ∈ waiting ∧ a < next ∧
        insertReverse (packet a) (queueOf packet waiting).reverse [] =
          .ok (queueOf packet (first :: (front ++ next :: a :: behind))) := by
  -- The last packet below the new one splits the queue.
  obtain ⟨before, e, after, rfl, he, hafter⟩ : ∃ before e after,
      waiting = before ++ e :: after ∧ e < a ∧ ∀ i ∈ after, a < i :=
    exists_last_below hnew hb hlt
  have hbytes : (queueOf packet (before ++ e :: after)).reverse =
      (queueOf packet after).reverse ++ packet e :: (queueOf packet before).reverse := by
    simp [queueOf]
  rw [hbytes, insertReverse_pass hindex hafter, insertReverse, hindex, hindex,
    if_neg (by omega), if_pos he, List.append_nil]
  cases after with
  | nil => exact .inl rfl
  | cons next behind =>
      have hnext : a < next := hafter next (by simp)
      cases before with
      | nil => exact .inr ⟨e, [], next, behind, by simp, hnext, rfl⟩
      | cons first before =>
          refine .inr ⟨first, before ++ [e], next, behind, by simp, hnext, ?_⟩
          simp [queueOf, insertBehind]

/-- Draining a sorted queue delivers its run of consecutive indices from the counter on. -/
theorem drainQueue_sorted (hindex : ∀ i, (packet i).index = i) (hsorted : waiting.Pairwise (· < ·))
    (hk : ∀ i ∈ waiting, k ≤ i) (hbound : ∀ i ∈ waiting, i + 1 < 2 ^ 32) :
    ∃ m rest, waiting = List.range' k m ++ rest ∧ k + m ∉ waiting ∧
      drainQueue k (queueOf packet waiting) =
        (queueOf packet (List.range' k m), queueOf packet rest, k + m) := by
  induction waiting generalizing k with
  | nil => exact ⟨0, [], rfl, by simp, rfl⟩
  | cons i waiting ih =>
      obtain ⟨hfirst, hrest⟩ := List.pairwise_cons.mp hsorted
      by_cases hi : i = k
      · subst hi
        obtain ⟨m, rest, rfl, hm, hdrain⟩ := ih hrest hfirst
          (fun j hj => hbound j (by simp [hj]))
        refine ⟨m + 1, rest, by simp [List.range'_succ], ?_, ?_⟩
        · simp only [List.mem_cons, not_or]
          exact ⟨by omega, by rwa [show i + (m + 1) = i + 1 + m by omega]⟩
        · have hnext : (i + 1) % 2 ^ 32 = i + 1 := Nat.mod_eq_of_lt (hbound i (by simp))
          show drainQueue i (packet i :: queueOf packet _) = _
          rw [drainQueue, if_neg (by simp [hindex]), hnext, hdrain]
          simp only [queueOf, List.range'_succ, List.map_cons, Prod.mk.injEq, true_and]
          omega
      · refine ⟨0, i :: waiting, rfl, ?_, ?_⟩
        · intro hmem
          rcases List.mem_cons.mp hmem with heq | htail
          · omega
          · have := hfirst _ htail
            have := hk i (by simp)
            omega
        · show drainQueue k (packet i :: queueOf packet _) = _
          rw [drainQueue, if_pos (by rwa [hindex])]
          rfl

end Queue

/-! ## The channels -/

section Channels

variable {p : Processer} {channel : Fin maxChannal} {channels : List (Fin maxChannal)}

/-- Draining and flushing leave an empty queue as it is. -/
theorem Processer.drain_empty (h : p.messageQueues channel = []) :
    (p.trigger (p.messageQueues channel)).setQueue channel [] = p ∧
      p.drainOrdered channel = p := by
  have hqueue : Function.update p.messageQueues channel [] = p.messageQueues := by
    rw [← h, Function.update_eq_self]
  constructor
  · simp [Processer.trigger, Processer.setQueue, h, hqueue]
  · simp [Processer.drainOrdered, Processer.trigger, Processer.setQueue, h, drainQueue, hqueue]

/-- Empty queues are drained without effect. -/
theorem Processer.drainQueues_empty (hpolicies : maxChannal ≤ p.channelsPolicy.length)
    (h : ∀ other ∈ channels, p.messageQueues other = []) : p.drainQueues channels = .ok p := by
  induction channels with
  | nil => rfl
  | cons other rest ih =>
      have hpolicy : p.channelsPolicy[other.val]? =
          some (p.channelsPolicy[other.val]) :=
        List.getElem?_eq_getElem (Nat.lt_of_lt_of_le other.isLt hpolicies)
      obtain ⟨hflush, hdrain⟩ := Processer.drain_empty (h other (by simp))
      rw [Processer.drainQueues, hpolicy]
      simp only [hflush, hdrain]
      rw [ih (fun other hother => h other (by simp [hother])), ite_self]

/-- When only one queue is not empty and its channel is ordered, the loop drains this queue. -/
theorem Processer.drainQueues_single (hpolicies : maxChannal ≤ p.channelsPolicy.length)
    (hordered : p.channelsPolicy[channel.val]? = some .ordered)
    (hothers : ∀ other ≠ channel, p.messageQueues other = []) (hnodup : channels.Nodup)
    (hmem : channel ∈ channels) : p.drainQueues channels = .ok (p.drainOrdered channel) := by
  induction channels with
  | nil => cases hmem
  | cons other rest ih =>
      obtain ⟨hother, hrest⟩ := List.nodup_cons.mp hnodup
      by_cases heq : other = channel
      · subst heq
        rw [Processer.drainQueues, hordered]
        simp only [reduceCtorEq, if_false]
        refine Processer.drainQueues_empty hpolicies fun found hfound => ?_
        have hne : found ≠ other := by
          rintro rfl
          exact hother hfound
        show Function.update p.messageQueues other _ found = []
        rw [Function.update_of_ne hne]
        exact hothers found hne
      · have hpolicy : p.channelsPolicy[other.val]? =
            some (p.channelsPolicy[other.val]) :=
          List.getElem?_eq_getElem (Nat.lt_of_lt_of_le other.isLt hpolicies)
        obtain ⟨hflush, hdrain⟩ := Processer.drain_empty (hothers other heq)
        have hlater : channel ∈ rest :=
          (List.mem_cons.mp hmem).resolve_left fun h => heq h.symm
        rw [Processer.drainQueues, hpolicy]
        simp only [hflush, hdrain]
        rw [ih hrest hlater, ite_self]

/-- Draining only adds events. -/
theorem Processer.drainQueues_events {q : Processer} (h : p.drainQueues channels = .ok q) :
    p.events ⊆ q.events := by
  induction channels generalizing p with
  | nil =>
      cases h
      exact List.Subset.refl _
  | cons other rest ih =>
      rw [Processer.drainQueues] at h
      split at h
      · cases h
      · split at h
        · refine List.Subset.trans ?_ (ih h)
          exact List.subset_append_left _ _
        · refine List.Subset.trans ?_ (ih h)
          exact List.subset_append_left _ _

end Channels

/-- `TryConsume` on a datagram that is one complete packet. -/
theorem tryConsume_packet {bytes : List UInt8} {packet : MessagePacket}
    (h : PacketOf bytes packet) (hlen : bytes.length < 2 ^ 32) (behind : List UInt8) :
    tryConsume (bytes ++ behind) bytes.length =
      .ok { consumptionLength := bytes.length, messagePackets := [packet] } := by
  obtain ⟨lines, body, header, hlines, hbody, rfl, rfl⟩ := h
  have hpackets := CompletePackets.cons hlines hbody .nil
  rw [List.append_nil] at hpackets
  exact hpackets.tryConsume hlen behind

/-! ## Arrivals -/

/-- Datagrams for the packets of one channel with the indices below `count`. -/
structure Datagrams (channel : Fin maxChannal) (count : Nat) where
  data : Nat → List UInt8
  packet : Nat → MessagePacket
  length_lt : ∀ i < count, (data i).length < 2 ^ 32
  valid : ∀ i < count, PacketOf (data i) (packet i)
  index : ∀ i, (packet i).index = i
  onChannel : ∀ i, (packet i).channel = channel
  window : count ≤ maxCachedPacket

variable {channel : Fin maxChannal} {count : Nat}

/-- An arrival is an index and the memory behind the datagram. -/
def Datagrams.calls (datagrams : Datagrams channel count) (arrivals : List (Nat × List UInt8)) :
    List ReadCall :=
  arrivals.map fun arrival => ⟨datagrams.data arrival.1, arrival.2⟩

/-- A packet waits when it has arrived and a packet below it has not. -/
def Waiting (arrived : List Nat) (i : Nat) : Prop := i ∈ arrived ∧ ∃ j < i, j ∉ arrived

/-- What the channel promises after these arrivals: it is connected, it has delivered the packets
whose lower indices have all arrived, in order and once, and its queue is strictly increasing and
holds no index below the receive counter. -/
structure InOrder (datagrams : Datagrams channel count) (arrived : List Nat) (p : Processer) :
    Prop where
  connected : .disconnect ∉ p.events
  delivered : ∃ due, (∀ j < due, j ∈ arrived) ∧ due ∉ arrived ∧
    p.delivered channel = (List.range due).map datagrams.packet
  sorted : (p.messageQueues channel).Pairwise (·.index < ·.index)
  fresh : ∀ packet ∈ p.messageQueues channel, p.recvChannels channel ≤ packet.index

/-- An arrival that the code handles as promised: a new packet below every waiting one, or a
duplicate of a waiting packet. -/
def Lucky (arrived : List Nat) (a : Nat) : Prop :=
  (a ∉ arrived → ∀ b, Waiting arrived b → a < b) ∧ (a ∈ arrived → Waiting arrived a)

/-- The state of the receiver between two arrivals, with the waiting indices and the next index
due. -/
structure OrderedInv (datagrams : Datagrams channel count) (arrived : List Nat) (p : Processer)
    (waiting : List Nat) (due : Nat) : Prop where
  udp : p.connectionType = .udp
  policies : maxChannal ≤ p.channelsPolicy.length
  ordered : p.channelsPolicy[channel.val]? = some .ordered
  others : ∀ other ≠ channel, p.messageQueues other = []
  connected : .disconnect ∉ p.events
  counter : p.recvChannels channel = due
  below : ∀ j < due, j ∈ arrived
  notYet : due ∉ arrived
  bounded : ∀ j ∈ arrived, j < count
  delivered : p.delivered channel = (List.range due).map datagrams.packet
  queue : p.messageQueues channel = queueOf datagrams.packet waiting
  sorted : waiting.Pairwise (· < ·)
  mem : ∀ i, i ∈ waiting ↔ i ∈ arrived ∧ due ≤ i

variable {datagrams : Datagrams channel count} {arrived waiting : List Nat} {p : Processer}
  {due : Nat}

theorem OrderedInv.inOrder (h : OrderedInv datagrams arrived p waiting due) :
    InOrder datagrams arrived p := by
  refine ⟨h.connected, ⟨due, h.below, h.notYet, h.delivered⟩, ?_, ?_⟩
  · rw [h.queue, queueOf, List.pairwise_map]
    exact h.sorted.imp fun hlt => by simpa [datagrams.index] using hlt
  · intro packet hpacket
    rw [h.queue] at hpacket
    obtain ⟨i, hi, rfl⟩ := List.mem_map.mp hpacket
    rw [h.counter, datagrams.index]
    exact ((h.mem i).mp hi).2

/-- The waiting packets are those in the queue. -/
theorem OrderedInv.waiting_iff (h : OrderedInv datagrams arrived p waiting due) (i : Nat) :
    Waiting arrived i ↔ i ∈ waiting := by
  rw [h.mem]
  constructor
  · rintro ⟨hi, j, hji, hj⟩
    refine ⟨hi, ?_⟩
    by_contra hlt
    exact hj (h.below j (by omega))
  · rintro ⟨hi, hle⟩
    have hne : due ≠ i := by
      rintro rfl
      exact h.notYet hi
    exact ⟨hi, due, by omega, h.notYet⟩

/-- The packet loop on a datagram with one packet of an ordered channel. -/
theorem Processer.queuePackets_ordered {packet : MessagePacket} {q : Processer}
    (hchannel : packet.channel = channel)
    (hordered : q.channelsPolicy[channel.val]? = some .ordered) :
    q.queuePackets [packet] [packet] = q.queueOrdered packet channel := by
  obtain ⟨content, length, number, index⟩ := packet
  subst hchannel
  have hbody : q.queuePacket [⟨content, length, channel, index⟩]
      ⟨content, length, channel, index⟩ [] =
        q.queueOrdered ⟨content, length, channel, index⟩ channel := by
    rw [Processer.queuePacket, dif_pos channel.isLt, hordered]
    exact if_pos (by simp)
  rw [Processer.queuePackets, hbody]
  cases q.queueOrdered ⟨content, length, channel, index⟩ channel <;> rfl

/-- Queueing a packet of an ordered channel, after the window test. -/
theorem Processer.queueOrdered_eq {packet : MessagePacket} {q : Processer} :
    q.queueOrdered packet channel =
      (insertReverse packet (q.messageQueues channel).reverse []).map fun queue =>
        (if outOfWindow packet.index (q.recvChannels channel) = true then q.disconnect
          else q).setQueue channel queue := by
  have hsame : (if outOfWindow packet.index (q.recvChannels channel) = true then q.disconnect
      else q).messageQueues channel = q.messageQueues channel := by
    split <;> rfl
  rw [Processer.queueOrdered]
  simp only [hsame]
  cases insertReverse packet (q.messageQueues channel).reverse [] <;> rfl

/-- `OnRead` on the datagram of a packet of the channel. -/
theorem OrderedInv.step_eq (h : OrderedInv datagrams arrived p waiting due) {a : Nat}
    (ha : a < count) (behind : List UInt8) :
    p.step ⟨datagrams.data a, behind⟩ =
      match p.queueOrdered (datagrams.packet a) channel with
      | .error _ => none
      | .ok q => (q.drainQueues (List.finRange maxChannal)).toOption := by
  have hlen := datagrams.length_lt a ha
  have hparse := tryConsume_packet (datagrams.valid a ha) hlen behind
  have hqueue := Processer.queuePackets_ordered (datagrams.onChannel a) h.ordered
  rw [Processer.step, Processer.onRead, if_pos h.udp, Processer.onReadDatagram,
    Nat.mod_eq_of_lt hlen, hparse]
  simp only [ne_eq, not_true_eq_false, if_false, hqueue]
  cases p.queueOrdered (datagrams.packet a) channel <;> rfl

/-- Only the queue of the channel is not empty. -/
theorem OrderedInv.setQueue_others (h : OrderedInv datagrams arrived p waiting due)
    (queue : List MessagePacket) : ∀ other ≠ channel,
      (p.setQueue channel queue).messageQueues other = [] := by
  intro other hother
  show Function.update p.messageQueues channel queue other = []
  rw [Function.update_of_ne hother]
  exact h.others other hother

/-- All packets of a queue are packets of the channel. -/
theorem filterMap_onChannel_queueOf (datagrams : Datagrams channel count) (indices : List Nat) :
    ((queueOf datagrams.packet indices).map Event.onPacketRecv).filterMap
      (Event.onChannel channel) = queueOf datagrams.packet indices := by
  induction indices with
  | nil => rfl
  | cons i rest ih => simpa [queueOf, Event.onChannel, datagrams.onChannel] using ih

/-- The drain loop after a packet has taken its place in a sorted queue of all arrived packets
that are not delivered. -/
theorem OrderedInv.drain (h : OrderedInv datagrams arrived p waiting due) {a : Nat}
    (ha : a < count) {next : List Nat} (hsorted : next.Pairwise (· < ·))
    (hmem : ∀ i, i ∈ next ↔ i ∈ arrived ++ [a] ∧ due ≤ i) :
    ∃ q waiting due, (p.setQueue channel (queueOf datagrams.packet next)).drainQueues
        (List.finRange maxChannal) = .ok q ∧
      OrderedInv datagrams (arrived ++ [a]) q waiting due := by
  have hbound : ∀ i ∈ arrived ++ [a], i < count := by
    intro i hi
    rcases List.mem_append.mp hi with hi | hi
    · exact h.bounded i hi
    · rw [List.mem_singleton.mp hi]
      exact ha
  have hsmall : count ≤ 100 := datagrams.window
  obtain ⟨m, rest, hsplit, hgap, hdrain⟩ := drainQueue_sorted datagrams.index hsorted
    (fun i hi => ((hmem i).mp hi).2)
    (fun i hi => by
      have := hbound i ((hmem i).mp hi).1
      omega)
  have hdrained : (p.setQueue channel (queueOf datagrams.packet next)).drainOrdered channel =
      { p with
        events := p.events ++ (queueOf datagrams.packet (List.range' due m)).map .onPacketRecv
        messageQueues :=
          Function.update p.messageQueues channel (queueOf datagrams.packet rest)
        recvChannels := Function.update p.recvChannels channel (due + m) } := by
    simp [Processer.drainOrdered, Processer.setQueue, Processer.trigger, h.counter, hdrain]
  have hrange : ∀ {i}, i ∈ List.range' due m ↔ due ≤ i ∧ i < due + m := by
    intro i
    rw [List.mem_range'_1]
  refine ⟨_, rest, due + m, Processer.drainQueues_single h.policies h.ordered (h.setQueue_others _)
    (List.nodup_finRange _) (List.mem_finRange _), ?_⟩
  rw [hdrained]
  rw [hsplit] at hsorted hgap hmem
  have hmember : ∀ i, i ∈ rest ↔ i ∈ arrived ++ [a] ∧ due + m ≤ i := by
    intro i
    constructor
    · intro hi
      have hnext := (hmem i).mp (by simp [hi])
      refine ⟨hnext.1, ?_⟩
      by_contra hlt
      have hfirst : i ∈ List.range' due m := hrange.mpr ⟨hnext.2, by omega⟩
      exact absurd ((List.pairwise_append.mp hsorted).2.2 i hfirst i hi) (by omega)
    · rintro ⟨hi, hle⟩
      rcases List.mem_append.mp ((hmem i).mpr ⟨hi, by omega⟩) with hfirst | hrest
      · have := (hrange.mp hfirst).2
        omega
      · exact hrest
  refine
    { udp := h.udp
      policies := h.policies
      ordered := h.ordered
      others := h.setQueue_others _
      connected := by simpa using h.connected
      counter := by simp
      below := fun j hj => ?_
      notYet := fun hin => hgap ((hmem _).mpr ⟨hin, by omega⟩)
      bounded := hbound
      delivered := ?_
      queue := by simp
      sorted := (List.pairwise_append.mp hsorted).2.1
      mem := hmember }
  · rcases Nat.lt_or_ge j due with hlt | hge
    · exact List.mem_append_left _ (h.below j hlt)
    · exact ((hmem j).mp (List.mem_append_left _ (hrange.mpr ⟨hge, hj⟩))).1
  · have hall : List.range due ++ List.range' due m = List.range (due + m) := by
      rw [List.range_eq_range', List.range_eq_range', ← List.range'_append_1, Nat.zero_add]
    have hdelivered := h.delivered
    rw [Processer.delivered] at hdelivered ⊢
    rw [List.filterMap_append, hdelivered, filterMap_onChannel_queueOf, queueOf,
      ← List.map_append, hall]

/-- Arrivals in the window of the channel pass the window test exactly when they are not below
the counter. -/
theorem OrderedInv.outOfWindow_iff (h : OrderedInv datagrams arrived p waiting due) {a : Nat}
    (ha : a < count) : outOfWindow a (p.recvChannels channel) = true ↔ a < due := by
  have hsmall : count ≤ 100 := datagrams.window
  have hdue : due ≤ count := by
    rcases Nat.eq_zero_or_pos due with hzero | hpositive
    · omega
    · have := h.bounded _ (h.below (due - 1) (by omega))
      omega
  rw [h.counter, outOfWindow, decide_eq_true_iff, maxCachedPacket, subUint32]
  split <;> omega

/-- An arrival that is handled as promised. -/
theorem OrderedInv.step_lucky (h : OrderedInv datagrams arrived p waiting due) {a : Nat}
    (ha : a < count) (hlucky : Lucky arrived a) (behind : List UInt8) :
    ∃ q waiting due, p.step ⟨datagrams.data a, behind⟩ = some q ∧
      OrderedInv datagrams (arrived ++ [a]) q waiting due := by
  have hmem : ∀ {i}, i ∈ arrived ++ [a] ↔ i ∈ arrived ∨ i = a := by
    intro i
    simp
  -- In both cases the packet takes its place in a sorted queue.
  obtain ⟨next, hinsert, hsorted, hnext, hwindow⟩ : ∃ next,
      insertReverse (datagrams.packet a) (queueOf datagrams.packet waiting).reverse [] =
        .ok (queueOf datagrams.packet next) ∧ next.Pairwise (· < ·) ∧
      (∀ i, i ∈ next ↔ i ∈ arrived ++ [a] ∧ due ≤ i) ∧ due ≤ a := by
    by_cases hnew : a ∈ arrived
    · have hwaiting := (h.waiting_iff a).mp (hlucky.2 hnew)
      refine ⟨waiting, insertReverse_mem datagrams.index h.sorted hwaiting, h.sorted,
        fun i => ?_, ((h.mem a).mp hwaiting).2⟩
      rw [h.mem, hmem]
      refine ⟨fun hi => ⟨.inl hi.1, hi.2⟩, fun hi => ⟨?_, hi.2⟩⟩
      rcases hi.1 with hi | rfl
      · exact hi
      · exact hnew
    · have hlow : ∀ i ∈ waiting, a < i := fun i hi =>
        hlucky.1 hnew i ((h.waiting_iff i).mpr hi)
      have hdue : due ≤ a := by
        by_contra hlt
        exact hnew (h.below a (by omega))
      refine ⟨a :: waiting, insertReverse_front datagrams.index hlow,
        List.pairwise_cons.mpr ⟨hlow, h.sorted⟩, fun i => ?_, hdue⟩
      rw [List.mem_cons, h.mem, hmem]
      constructor
      · rintro (rfl | hi)
        · exact ⟨.inr rfl, hdue⟩
        · exact ⟨.inl hi.1, hi.2⟩
      · rintro ⟨hi | rfl, hle⟩
        · exact .inr ⟨hi, hle⟩
        · exact .inl rfl
  have hinside : ¬ outOfWindow a (p.recvChannels channel) = true := by
    rw [h.outOfWindow_iff ha]
    omega
  obtain ⟨q, waiting, due, hdrain, hq⟩ := h.drain ha hsorted hnext
  refine ⟨q, waiting, due, ?_, hq⟩
  have hordered : p.queueOrdered (datagrams.packet a) channel =
      .ok (p.setQueue channel (queueOf datagrams.packet next)) := by
    rw [Processer.queueOrdered_eq, h.queue, hinsert, datagrams.index, if_neg hinside]
    rfl
  rw [h.step_eq ha, hordered]
  simp only [hdrain]
  rfl

/-- An arrival that breaks a promise of the channel, if the call returns at all. -/
theorem OrderedInv.step_unlucky (h : OrderedInv datagrams arrived p waiting due) {a : Nat}
    (ha : a < count) (hunlucky : ¬ Lucky arrived a) {behind : List UInt8} {q : Processer}
    (hstep : p.step ⟨datagrams.data a, behind⟩ = some q) :
    ¬ InOrder datagrams (arrived ++ [a]) q := by
  intro hinOrder
  rw [h.step_eq ha, Processer.queueOrdered_eq, h.queue, datagrams.index] at hstep
  by_cases hnew : a ∈ arrived
  · -- A duplicate of a delivered packet is out of the window, and the session is disconnected.
    have hstale : a < due := by
      by_contra hge
      refine hunlucky ⟨fun hno => absurd hnew hno, fun _ => ?_⟩
      exact (h.waiting_iff a).mpr ((h.mem a).mpr ⟨hnew, by omega⟩)
    rw [if_pos ((h.outOfWindow_iff ha).mpr hstale)] at hstep
    cases hinsert : insertReverse (datagrams.packet a)
        (queueOf datagrams.packet waiting).reverse [] with
    | error stop =>
        rw [hinsert] at hstep
        cases hstep
    | ok queue =>
        rw [hinsert] at hstep
        have hdrain := eq_ok_of_toOption hstep
        exact hinOrder.connected (Processer.drainQueues_events hdrain
          (by simp [Processer.disconnect, Processer.setQueue]))
  · -- A packet that is not below the waiting ones is misplaced.
    have hdue : ¬ a < due := fun hlt => hnew (h.below a hlt)
    rw [if_neg (fun hout => hdue ((h.outOfWindow_iff ha).mp hout))] at hstep
    obtain ⟨b, hb, hba⟩ : ∃ b ∈ waiting, b < a := by
      by_contra hnone
      refine hunlucky ⟨fun _ b hb => ?_, fun hin => absurd hin hnew⟩
      have hmem := (h.waiting_iff b).mp hb
      have hne : b ≠ a := by
        rintro rfl
        exact hnew hb.1
      have hge : ¬ b < a := fun hlt => hnone ⟨b, hmem, hlt⟩
      omega
    rcases insertReverse_misplaced datagrams.index (fun hin => hnew ((h.mem a).mp hin).1)
      hb hba with herror | ⟨first, front, next, behind, hfirst, hlt, hinsert⟩
    · rw [herror] at hstep
      cases hstep
    · rw [hinsert] at hstep
      have hdrain := eq_ok_of_toOption hstep
      have hgap : first ≠ due := by
        rintro rfl
        exact h.notYet ((h.mem first).mp hfirst).1
      have hsingle := Processer.drainQueues_single
        (p := p.setQueue channel
          (queueOf datagrams.packet (first :: (front ++ next :: a :: behind))))
        h.policies h.ordered (h.setQueue_others _) (List.nodup_finRange _)
        (List.mem_finRange channel)
      rw [hdrain, Except.ok.injEq] at hsingle
      have hqueue : q.messageQueues channel =
          queueOf datagrams.packet (first :: (front ++ next :: a :: behind)) := by
        have hstay : drainQueue due (queueOf datagrams.packet
            (first :: (front ++ next :: a :: behind))) =
              ([], queueOf datagrams.packet (first :: (front ++ next :: a :: behind)), due) := by
          show drainQueue due (datagrams.packet first :: _) = _
          rw [drainQueue, if_pos (by rwa [datagrams.index])]
          rfl
        simp [hsingle, Processer.drainOrdered, Processer.setQueue, Processer.trigger, h.counter,
          hstay]
      have hsorted := hinOrder.sorted
      rw [hqueue, queueOf, List.pairwise_map] at hsorted
      have htail := (List.pairwise_append.mp (List.pairwise_cons.mp hsorted).2).2.1
      have hwrong := (List.pairwise_cons.mp htail).1 a (by simp)
      rw [datagrams.index, datagrams.index] at hwrong
      omega

/-- Whole runs from a state between two arrivals. -/
theorem OrderedInv.run_iff (h : OrderedInv datagrams arrived p waiting due)
    {arrivals : List (Nat × List UInt8)} (harrivals : ∀ arrival ∈ arrivals, arrival.1 < count) :
    (∀ first, first <+: arrivals → ∃ q,
        exec Processer.step p (datagrams.calls first) = some q ∧
        InOrder datagrams (arrived ++ first.map Prod.fst) q) ↔
      ∀ before a behind, before ++ [(a, behind)] <+: arrivals →
        Lucky (arrived ++ before.map Prod.fst) a := by
  induction arrivals generalizing arrived p waiting due with
  | nil =>
      constructor
      · intro _ before a behind hbegins
        simp at hbegins
      · intro _ first hbegins
        rw [List.prefix_nil.mp hbegins]
        exact ⟨p, rfl, by simpa using h.inOrder⟩
  | cons arrival rest ih =>
      obtain ⟨a, behind⟩ := arrival
      have ha : a < count := harrivals (a, behind) (by simp)
      have hrest : ∀ arrival ∈ rest, arrival.1 < count :=
        fun arrival harrival => harrivals arrival (by simp [harrival])
      by_cases hlucky : Lucky arrived a
      · obtain ⟨q, waiting, due, hstep, hq⟩ := h.step_lucky ha hlucky behind
        have htail := ih hq hrest
        constructor
        · intro hrun before b later hbegins
          cases before with
          | nil =>
              cases (List.cons_prefix_cons.mp hbegins).1
              simpa using hlucky
          | cons first before =>
              obtain ⟨rfl, hinner⟩ := List.cons_prefix_cons.mp hbegins
              have hlater := htail.mp (fun first hfirst => by
                obtain ⟨r, hexec, hr⟩ := hrun ((a, behind) :: first)
                  (List.cons_prefix_cons.mpr ⟨rfl, hfirst⟩)
                obtain ⟨next, hnext, hexec⟩ := exec_cons_eq_some.mp hexec
                rw [hstep, Option.some.injEq] at hnext
                exact ⟨r, hnext ▸ hexec, by simpa using hr⟩) before b later hinner
              simpa using hlater
        · intro hall first hbegins
          cases first with
          | nil => exact ⟨p, rfl, by simpa using h.inOrder⟩
          | cons arrival first =>
              obtain ⟨rfl, hinner⟩ := List.cons_prefix_cons.mp hbegins
              obtain ⟨r, hexec, hr⟩ := htail.mpr (fun before b later hbefore => by
                simpa using hall ((a, behind) :: before) b later
                  (List.cons_prefix_cons.mpr ⟨rfl, hbefore⟩)) first hinner
              exact ⟨r, exec_cons_eq_some.mpr ⟨q, hstep, hexec⟩, by simpa using hr⟩
      · constructor
        · intro hrun
          obtain ⟨q, hexec, hq⟩ := hrun [(a, behind)] (by simp)
          obtain ⟨next, hstep, hnext⟩ := exec_cons_eq_some.mp hexec
          cases hnext
          exact absurd (by simpa using hq) (h.step_unlucky ha hlucky hstep)
        · intro hall
          exact absurd (by simpa using hall [] a behind (by simp)) hlucky

/-- A fresh receiver of datagrams on an ordered channel. -/
def orderedReceiver (policies : List EMessagePolicy) : Processer :=
  { connectionType := .udp, channelsPolicy := policies }

/-- The promises of the channel after every call of a run. -/
def KeepsOrder (datagrams : Datagrams channel count) (policies : List EMessagePolicy)
    (arrivals : List (Nat × List UInt8)) : Prop :=
  ∀ first, first <+: arrivals → ∃ p,
    exec Processer.step (orderedReceiver policies) (datagrams.calls first) = some p ∧
      InOrder datagrams (first.map Prod.fst) p

/-- The ordered channel. For every sequence of arrivals of valid packets of the channel with
indices below `count`, the promises of the channel hold after every call exactly when each
arriving packet is new and below every waiting one, or waits already. -/
theorem ordered_iff_lucky (datagrams : Datagrams channel count) {policies : List EMessagePolicy}
    (hpolicies : maxChannal ≤ policies.length)
    (hordered : policies[channel.val]? = some .ordered) {arrivals : List (Nat × List UInt8)}
    (harrivals : ∀ arrival ∈ arrivals, arrival.1 < count) :
    KeepsOrder datagrams policies arrivals ↔
      ∀ before a behind, before ++ [(a, behind)] <+: arrivals →
        Lucky (before.map Prod.fst) a := by
  have hstart : OrderedInv datagrams [] (orderedReceiver policies) [] 0 :=
    { udp := rfl
      policies := hpolicies
      ordered := hordered
      others := fun other hother => rfl
      connected := by simp [orderedReceiver]
      counter := rfl
      below := by simp
      notYet := by simp
      bounded := by simp
      delivered := rfl
      queue := rfl
      sorted := .nil
      mem := by simp }
  simpa [KeepsOrder] using hstart.run_iff harrivals

/-- The datagrams of three empty messages on channel 0. -/
def emptyDatagrams : Datagrams channelZero 3 where
  data i := (buildPacket (fun _ => i) [] channelZero).1
  packet i := { index := i }
  length_lt := by decide
  valid := fun i hi => buildPacket_packetOf (by decide) (Nat.lt_trans hi (by decide))
  index := fun i => rfl
  onChannel := fun i => rfl
  window := by decide

/-- Every channel is ordered. -/
def allOrdered : List EMessagePolicy := List.replicate maxChannal .ordered

/-- A packet that comes early, comes again and is followed by the one below it. -/
theorem descending_arrivals_keep_order :
    KeepsOrder emptyDatagrams allOrdered [(1, []), (1, []), (0, [])] := by
  refine (ordered_iff_lucky emptyDatagrams (by decide) (by decide) (by decide)).mpr ?_
  intro before a behind hbegins
  match before with
  | [] =>
      cases (List.cons_prefix_cons.mp hbegins).1
      exact ⟨fun _ b hb => by simp [Waiting] at hb, fun hin => by simp at hin⟩
  | [first] =>
      obtain ⟨rfl, hrest⟩ := List.cons_prefix_cons.mp hbegins
      cases (List.cons_prefix_cons.mp hrest).1
      exact ⟨fun hnew => absurd (by simp) hnew, fun _ => ⟨by simp, 0, by simp, by simp⟩⟩
  | [first, second] =>
      obtain ⟨rfl, hrest⟩ := List.cons_prefix_cons.mp hbegins
      obtain ⟨rfl, hlast⟩ := List.cons_prefix_cons.mp hrest
      cases (List.cons_prefix_cons.mp hlast).1
      refine ⟨fun _ b hb => ?_, fun hin => by simp at hin⟩
      have hone : b = 1 := by simpa [Waiting] using hb.1
      omega
  | _ :: _ :: _ :: _ =>
      have hlen := hbegins.length_le
      simp only [List.length_append, List.length_cons, List.length_nil] at hlen
      omega

/-- Two packets that come in order before the one below them, and a delivered packet that comes
again. -/
theorem ascending_arrivals_break_order :
    exec Processer.step (orderedReceiver allOrdered)
        (emptyDatagrams.calls [(1, []), (2, [])]) = none ∧
      ¬ KeepsOrder emptyDatagrams allOrdered [(1, []), (2, [])] ∧
      ¬ KeepsOrder emptyDatagrams allOrdered [(0, []), (0, [])] := by
  have hundefined : exec Processer.step (orderedReceiver allOrdered)
      (emptyDatagrams.calls [(1, []), (2, [])]) = none := rfl
  refine ⟨hundefined, fun hkeeps => ?_, fun hkeeps => ?_⟩
  · obtain ⟨p, hrun, -⟩ := hkeeps _ List.prefix_rfl
    rw [hundefined] at hrun
    cases hrun
  · obtain ⟨p, hrun, hp⟩ := hkeeps _ List.prefix_rfl
    have hevents : (exec Processer.step (orderedReceiver allOrdered)
        (emptyDatagrams.calls [(0, []), (0, [])])).map Processer.events =
          some [.onPacketRecv {}, .disconnect] := rfl
    rw [hrun] at hevents
    apply hp.connected
    rw [Option.some.inj hevents]
    simp

end Utilpp.Message
