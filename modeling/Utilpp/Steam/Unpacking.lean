import Utilpp.Steam.Multi

/-!
# The loop over the body of a Multi packet

The loop of `OnWSDataReceived` at the level of its cursor, over a memory in which the body lies at
the offsets from 0 on and which has other bytes around it. A length is read without a look at the
end of the body and used with its sign, so that the cursor can also move back: the loop then hands
on packets that lie outside of the body, or never ends. `unpacking_iff` says for which bodies the
loop ends and reads and hands on just the packets of the body; for these it is the loop of
`Environment.walk` (`walk_unpacked`).
-/

namespace Utilpp.Steam

open Lib

variable {CMsgProtoBufHeader Rest : Type}

/-- The `n` bytes from an offset on. -/
def slice (mem : Int → UInt8) (offset : Int) (n : Nat) : List UInt8 :=
  (List.range n).map fun i : Nat => mem (offset + i)

@[simp] theorem length_slice (mem : Int → UInt8) (offset : Int) (n : Nat) :
    (slice mem offset n).length = n := by
  rw [slice, List.length_map, List.length_range]

/-- What the loop does with the memory: it reads a length, or hands on a packet. -/
inductive Access where
  | length (offset : Int)
  | packet (offset len : Int)
  deriving DecidableEq, Repr

/-- Whether the loop has ended. Behind a packet whose handler destroyed the body the length is read
once more, because it is held by reference: what follows is undefined. -/
inductive Ended where
  | running
  | stopped
  | destroyed
  deriving DecidableEq, Repr

/-- The loop, for at most `fuel` iterations. `destroys` tells the packets whose handler changes
the body. -/
def unpack (mem : Int → UInt8) (size : Nat) (destroys : List UInt8 → Bool) :
    Nat → Int → List Access × Ended
  | 0, _ => ([], .running)
  | fuel + 1, cursor =>
      if (size : Int) ≤ cursor then ([], .stopped)
      else
        let length := int32 (ofBytes (slice mem cursor 4))
        let next := cursor + 4
        if (size : Int) < next + length then ([.length cursor], .stopped)
        else if destroys (slice mem next length.toNat) then
          ([.length cursor, .packet next length], .destroyed)
        else
          let rest := unpack mem size destroys fuel (next + length)
          (.length cursor :: .packet next length :: rest.1, rest.2)

/-! ## What is expected -/

/-- The access lies in the body. -/
def Access.Inside (size : Nat) : Access → Prop
  | length offset => 0 ≤ offset ∧ offset + 4 ≤ size
  | packet offset len => 0 ≤ offset ∧ 0 ≤ len ∧ offset + len ≤ size

/-- The bytes of a packet that is handed on. -/
def Access.bytes? (mem : Int → UInt8) : Access → Option (List UInt8)
  | length _ => none
  | packet offset len => some (slice mem offset len.toNat)

/-- The body lies in the memory. -/
def Holds (mem : Int → UInt8) (body : List UInt8) : Prop := slice mem 0 body.length = body

/-- The packets are the longest beginning of the body that consists of complete packets, each
behind its length. -/
def LongestPrefix (packets : List (List UInt8)) (body : List UInt8) : Prop :=
  ∃ tail, body = packed packets ++ tail ∧ (∀ packet ∈ packets, packet.length < 2 ^ 31) ∧
    ∀ packet rest : List UInt8, packet.length < 2 ^ 31 →
      tail ≠ toBytes 4 packet.length ++ packet ++ rest

/-- The loop ends, does not leave the body while it lasts, and hands on the longest beginning. -/
def Unpacked (mem : Int → UInt8) (body : List UInt8) (destroys : List UInt8 → Bool) : Prop :=
  ∃ fuel accesses, unpack mem body.length destroys fuel 0 = (accesses, .stopped) ∧
    (∀ access ∈ accesses, access.Inside body.length) ∧
    LongestPrefix (accesses.filterMap (Access.bytes? mem)) body

/-- The body has packets that leave it alone, and at its end at most a packet that is cut off
behind its length. -/
def Regular (destroys : List UInt8 → Bool) (body : List UInt8) : Prop :=
  ∃ packets tail, body = packed packets ++ tail ∧ (∀ packet ∈ packets, packet.length < 2 ^ 31) ∧
    (∀ packet ∈ packets, destroys packet = false) ∧ Cut tail

/-! ## The loop follows the body -/

variable {mem : Int → UInt8} {body : List UInt8} {destroys : List UInt8 → Bool}

theorem slice_eq (h : Holds mem body) {c n : Nat} (hn : c + n ≤ body.length) :
    slice mem c n = (body.drop c).take n := by
  have hlength : ((body.drop c).take n).length = n := by
    rw [List.length_take, List.length_drop]
    omega
  refine List.ext_getElem (by rw [hlength, length_slice]) fun i hi hi' => ?_
  rw [length_slice] at hi
  have hbody : (slice mem 0 body.length)[c + i]? = body[c + i]? := by rw [h]
  rw [List.getElem_take, List.getElem_drop]
  rw [List.getElem?_eq_getElem (by omega : c + i < body.length), slice, List.getElem?_map,
    List.getElem?_range (by omega)] at hbody
  simp only [Option.map_some, Option.some.injEq] at hbody
  rw [← hbody]
  simp only [slice, List.getElem_map, List.getElem_range]
  congr 1
  omega

/-- A body that begins with a packet. -/
theorem packet_at (h : Holds mem body) {c : Nat} {packet rest : List UInt8}
    (hrest : body.drop c = toBytes 4 packet.length ++ (packet ++ rest))
    (hpacket : packet.length < 2 ^ 31) :
    int32 (ofBytes (slice mem c 4)) = packet.length ∧
      slice mem (c + 4 : Nat) packet.length = packet ∧
      c + 4 + packet.length + rest.length = body.length ∧
      body.drop (c + 4 + packet.length) = rest := by
  have hlength := congrArg List.length hrest
  simp only [List.length_drop, List.length_append, length_toBytes] at hlength
  have hdrop : body.drop (c + 4) = packet ++ rest := by
    rw [← List.drop_drop, hrest, List.drop_left' (length_toBytes 4 _)]
  refine ⟨?_, ?_, by omega, ?_⟩
  · rw [slice_eq h (by omega), hrest, List.take_left' (length_toBytes 4 _),
      ofBytes_toBytes (by omega)]
    exact Int.bmod_eq_of_le (by omega) (by omega)
  · rw [slice_eq h (by omega), hdrop, List.take_left]
  · rw [← List.drop_drop, hdrop, List.drop_left]

/-- The loop over a regular body ends, and hands on its packets. -/
theorem unpack_regular (h : Holds mem body) {packets : List (List UInt8)} {tail : List UInt8}
    {c : Nat} (hc : c ≤ body.length) (hbody : body.drop c = packed packets ++ tail)
    (hlengths : ∀ packet ∈ packets, packet.length < 2 ^ 31)
    (hkeeps : ∀ packet ∈ packets, destroys packet = false) (hcut : Cut tail) :
    ∃ accesses, unpack mem body.length destroys (packets.length + 1) c = (accesses, .stopped) ∧
      (∀ access ∈ accesses, access.Inside body.length) ∧
      accesses.filterMap (Access.bytes? mem) = packets := by
  induction packets generalizing c with
  | nil =>
      have htail : body.drop c = tail := hbody
      have hlength := congrArg List.length htail
      rw [List.length_drop] at hlength
      rw [unpack]
      split
      · exact ⟨[], rfl, fun _ h => absurd h List.not_mem_nil, rfl⟩
      · rename_i hmore
        rcases hcut with rfl | ⟨hfour, hlong⟩
        · rw [List.length_nil] at hlength
          omega
        · rw [slice_eq h (by omega), htail]
          dsimp only
          rw [if_pos (by omega)]
          refine ⟨[.length c], rfl, fun access haccess => ?_, rfl⟩
          rw [List.mem_singleton.mp haccess]
          exact ⟨by omega, by omega⟩
  | cons packet packets ih =>
      rw [packed_cons, List.append_assoc, List.append_assoc] at hbody
      have hpacket := hlengths packet List.mem_cons_self
      obtain ⟨hlength, hbytes, hsum, hrest⟩ := packet_at h hbody hpacket
      have hbehind : c + 4 + packet.length ≤ body.length := by omega
      obtain ⟨accesses, hrun, hinside, hpackets⟩ := ih hbehind hrest
        (fun p hp => hlengths p (List.mem_cons_of_mem _ hp))
        (fun p hp => hkeeps p (List.mem_cons_of_mem _ hp))
      have hnext : (c : Int) + 4 = ((c + 4 : Nat) : Int) := by omega
      have hend : ((c + 4 : Nat) : Int) + packet.length =
          ((c + 4 + packet.length : Nat) : Int) := by omega
      refine ⟨.length c :: .packet (c + 4 : Nat) packet.length :: accesses, ?_, ?_, ?_⟩
      · rw [List.length_cons, unpack, if_neg (by omega), hlength]
        dsimp only
        rw [if_neg (by omega), Int.toNat_natCast, hnext, hbytes,
          if_neg (by rw [hkeeps packet List.mem_cons_self]; exact Bool.false_ne_true), hend, hrun]
      · intro access haccess
        rcases List.mem_cons.mp haccess with rfl | haccess
        · exact ⟨by omega, by omega⟩
        · rcases List.mem_cons.mp haccess with rfl | haccess
          · exact ⟨by omega, by omega, by omega⟩
          · exact hinside access haccess
      · rw [List.filterMap_cons, Access.bytes?, List.filterMap_cons, Access.bytes?,
          Int.toNat_natCast, hbytes, hpackets]

/-- A length that is not negative is the number that was read. -/
theorem eq_of_int32_eq {x n : Nat} (hx : x < 2 ^ 32) (h : int32 x = n) : x = n ∧ n < 2 ^ 31 := by
  have hbmod := Int.bmod_def x (2 ^ 32)
  unfold int32 at h
  omega

/-- A packet that is read inside of the body is one of the body. -/
theorem packet_of_inside (h : Holds mem body) {c : Nat} (hread : (c : Int) + 4 ≤ body.length)
    (hnonneg : 0 ≤ int32 (ofBytes (slice mem c 4)))
    (hfits : (c : Int) + 4 + int32 (ofBytes (slice mem c 4)) ≤ body.length) :
    ∃ packet : List UInt8, packet.length < 2 ^ 31 ∧
      int32 (ofBytes (slice mem c 4)) = packet.length ∧
      slice mem ((c : Int) + 4) packet.length = packet ∧
      body.drop c = toBytes 4 packet.length ++ (packet ++ body.drop (c + 4 + packet.length)) := by
  have hfour : slice mem c 4 = (body.drop c).take 4 := slice_eq h (by omega)
  have hfourLength : ((body.drop c).take 4).length = 4 := by
    rw [List.length_take, List.length_drop]
    omega
  have hlt := ofBytes_lt ((body.drop c).take 4)
  have hwritten := toBytes_ofBytes ((body.drop c).take 4)
  rw [hfourLength] at hlt hwritten
  rw [hfour] at hnonneg hfits ⊢
  obtain ⟨n, hn⟩ := Int.eq_ofNat_of_zero_le hnonneg
  rw [hn] at hfits ⊢
  obtain ⟨heq, hshort⟩ := eq_of_int32_eq hlt hn
  rw [heq] at hwritten
  have hpacket : ((body.drop (c + 4)).take n).length = n := by
    rw [List.length_take, List.length_drop]
    omega
  have hstart : (c : Int) + 4 = ((c + 4 : Nat) : Int) := by omega
  have hdrop : body.drop (c + 4 + n) = (body.drop (c + 4)).drop n := List.drop_drop.symm
  have hdropFour : body.drop (c + 4) = (body.drop c).drop 4 := List.drop_drop.symm
  refine ⟨(body.drop (c + 4)).take n, ?_, ?_, ?_, ?_⟩
  · rw [hpacket]
    exact hshort
  · rw [hpacket]
  · rw [hpacket, hstart, slice_eq h (by omega)]
  · rw [hpacket, hwritten, hdrop, List.take_append_drop, hdropFour, List.take_append_drop]

/-- A packet in front of a regular body. -/
theorem Regular.cons {packet rest : List UInt8} (h : Regular destroys rest)
    (hpacket : packet.length < 2 ^ 31) (hkeeps : destroys packet = false) :
    Regular destroys (toBytes 4 packet.length ++ (packet ++ rest)) := by
  obtain ⟨packets, tail, rfl, hlengths, hkept, hcut⟩ := h
  refine ⟨packet :: packets, tail, ?_, List.forall_mem_cons.mpr ⟨hpacket, hlengths⟩,
    List.forall_mem_cons.mpr ⟨hkeeps, hkept⟩, hcut⟩
  rw [packed_cons, List.append_assoc, List.append_assoc]

/-- A body is regular from where the loop ends without leaving it. -/
theorem regular_of_unpack (h : Holds mem body) {fuel c : Nat} {accesses : List Access}
    (hc : c ≤ body.length)
    (hrun : unpack mem body.length destroys fuel c = (accesses, .stopped))
    (hinside : ∀ access ∈ accesses, access.Inside body.length) :
    Regular destroys (body.drop c) := by
  induction fuel generalizing c accesses with
  | zero => cases hrun
  | succ fuel ih =>
      rw [unpack] at hrun
      split at hrun
      · refine ⟨[], [], ?_, nofun, nofun, .inl rfl⟩
        rw [List.drop_eq_nil_of_le (by omega)]
        rfl
      · rename_i hmore
        dsimp only at hrun
        split at hrun
        · rename_i hbreak
          obtain ⟨rfl, -⟩ := Prod.mk.inj hrun
          have hread := (hinside _ List.mem_cons_self).2
          rw [slice_eq h (by omega)] at hbreak
          refine ⟨[], body.drop c, rfl, nofun, nofun, .inr ?_⟩
          rw [List.length_drop]
          omega
        · split at hrun
          · cases hrun
          · rename_i hkeeps
            obtain ⟨rfl, hended⟩ := Prod.mk.inj hrun
            have hread := (hinside _ List.mem_cons_self).2
            obtain ⟨-, hnonneg, hfits⟩ :=
              hinside _ (List.mem_cons_of_mem _ List.mem_cons_self)
            obtain ⟨packet, hshort, hlength, hbytes, hbody⟩ :=
              packet_of_inside h hread hnonneg hfits
            rw [hlength] at hfits hkeeps hended hinside
            have hnext : (c : Int) + 4 + packet.length = ((c + 4 + packet.length : Nat) : Int) := by
              omega
            rw [Int.toNat_natCast, hbytes, Bool.not_eq_true] at hkeeps
            rw [hnext] at hended hinside
            have hbehind : c + 4 + packet.length ≤ body.length := by omega
            rw [hbody]
            refine Regular.cons (ih hbehind (Prod.ext rfl hended) fun access haccess => ?_) hshort
              hkeeps
            exact hinside access (List.mem_cons_of_mem _ (List.mem_cons_of_mem _ haccess))

/-! ## Every body -/

/-- No complete packet begins what is left. -/
theorem Cut.no_packet {tail : List UInt8} (h : Cut tail) {packet rest : List UInt8}
    (hpacket : packet.length < 2 ^ 31) : tail ≠ toBytes 4 packet.length ++ packet ++ rest := by
  rintro rfl
  rw [List.append_assoc] at h
  rcases h with hnil | ⟨-, hlong⟩
  · have hlength := congrArg List.length hnil
    rw [List.length_append, length_toBytes, List.length_nil] at hlength
    omega
  · have hread : int32 packet.length = packet.length := Int.bmod_eq_of_le (by omega) (by omega)
    rw [List.take_left' (length_toBytes 4 _), ofBytes_toBytes (by omega), hread,
      List.length_append, List.length_append, length_toBytes] at hlong
    omega

/-- The loop ends, stays inside the body and hands on its longest beginning of complete packets
exactly when the body is regular. -/
theorem unpacking_iff (mem : Int → UInt8) (body : List UInt8) (destroys : List UInt8 → Bool)
    (h : Holds mem body) : Unpacked mem body destroys ↔ Regular destroys body := by
  constructor
  · rintro ⟨fuel, accesses, hrun, hinside, -⟩
    exact regular_of_unpack h (Nat.zero_le _) hrun hinside
  · rintro ⟨packets, tail, rfl, hlengths, hkeeps, hcut⟩
    obtain ⟨accesses, hrun, hinside, hpackets⟩ :=
      unpack_regular h (Nat.zero_le _) List.drop_zero hlengths hkeeps hcut
    refine ⟨_, accesses, hrun, hinside, ?_⟩
    rw [hpackets]
    exact ⟨tail, rfl, hlengths, fun _ _ => hcut.no_packet⟩

/-- Two bytes in a packet, and one that is cut off. -/
theorem unpacking_two :
    Unpacked (fun i => [2, 0, 0, 0, 7, 8, 5, 0, 0, 0, 9].getD i.toNat 0)
      [2, 0, 0, 0, 7, 8, 5, 0, 0, 0, 9] fun _ => false :=
  (unpacking_iff _ _ _ (by unfold Holds; decide)).mpr
    ⟨[[7, 8]], [5, 0, 0, 0, 9], rfl, by decide, fun _ _ => rfl, .inr ⟨by decide, by decide⟩⟩

/-- A length of minus four leads back to itself. -/
theorem not_unpacking :
    ¬ ∀ (mem : Int → UInt8) (body : List UInt8), Holds mem body →
      Unpacked mem body fun _ => false := by
  intro h
  obtain ⟨fuel, accesses, hrun, -⟩ :=
    h (fun i => [0xfc, 0xff, 0xff, 0xff].getD i.toNat 0) [0xfc, 0xff, 0xff, 0xff]
      (by unfold Holds; decide)
  have hread : int32 (ofBytes (slice (fun i => [0xfc, 0xff, 0xff, 0xff].getD i.toNat 0) 0 4)) =
      -4 := by decide
  have hruns : ∀ fuel, (unpack (fun i => [0xfc, 0xff, 0xff, 0xff].getD i.toNat 0) 4
      (fun _ => false) fuel 0).2 = .running := by
    intro fuel
    induction fuel with
    | zero => rfl
    | succ fuel ih =>
        rw [unpack, hread]
        exact ih
  have hended := hruns fuel
  rw [show ([0xfc, 0xff, 0xff, 0xff] : List UInt8).length = 4 from rfl] at hrun
  rw [hrun] at hended
  cases hended

/-- When `Multi` packets destroy the body, the loop of the handler over a regular body is a run of
the handler over its packets. -/
theorem walk_unpacked {env : Environment CMsgProtoBufHeader Rest}
    (hdestroys : ∀ packet, destroys packet = true ↔ env.IsMulti packet)
    (h : Regular destroys body) (client : SteamClient Rest) :
    ∃ packets, LongestPrefix packets body ∧
      Environment.walk env.receiveInside body.length client body =
        env.receiveAll client packets := by
  obtain ⟨packets, tail, rfl, hlengths, hkeeps, hcut⟩ := h
  refine ⟨packets, ⟨tail, rfl, hlengths, fun _ _ => hcut.no_packet⟩, ?_⟩
  rw [Environment.walk_packed_append _ hlengths hcut (Nat.le_refl _)]
  refine Environment.inside_eq_receiveAll (fun packet hpacket hmulti => ?_) client
  rw [← hdestroys, hkeeps packet hpacket] at hmulti
  cases hmulti

end Utilpp.Steam
