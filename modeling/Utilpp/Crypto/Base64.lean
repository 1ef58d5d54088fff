import Utilpp.Buffer.Bounds
import Utilpp.Crypto.Aes
import Utilpp.Lib.Widths

/-!
# Reading decoded base64

`crypto_lib_base64_decode` and `CryptoLibBase64Decode`, built with OpenSSL. Both call `BIO_read` in
a loop until it has nothing more to deliver. What the calls deliver is a list of pieces. The loops
count the bytes, but every call is offered the beginning of the destination and all of its room, so
that a piece is written over the one before it (`Reassembles`, `base64_decode_iff`).
-/

namespace Utilpp.Crypto

open Lib Buffer

/-! ## The loops -/

/-- A call of `BIO_read`: the number of bytes that were delivered before it, and its length. -/
structure ReadCall where
  delivered : Nat
  room : Int
  deriving DecidableEq, Repr

/-- The loop of `crypto_lib_base64_decode` from the value `len` of `*inoutlen` on. The last call
returns no bytes. -/
def readLoop (room : Int) (out : Block UInt8) (len : Nat) :
    List (List UInt8) → Option (Block UInt8 × Nat × List ReadCall)
  | [] => some (out, len, [⟨len, room⟩])
  | piece :: pieces => do
      let out ← out.store 0 (piece.map some)
      let (out, total, calls) ← readLoop room out (len + piece.length) pieces
      some (out, total, ⟨len, room⟩ :: calls)

/-- The result of `crypto_lib_base64_decode`, with what stands in the memory of the caller. -/
structure Decoded where
  result : Bool
  dst : Option (Block UInt8)
  inoutlen : Option Nat
  calls : List ReadCall
  deriving DecidableEq, Repr

/-- `crypto_lib_base64_decode`. A null pointer is `none`; `insize` is the length of `src`. -/
def crypto_lib_base64_decode (pieces : List (List UInt8)) (src : Option (List UInt8))
    (dst : Option (Block UInt8)) (inoutlen : Option Nat) : Option Decoded :=
  match inoutlen, src with
  | some dlen, some src => do
      match dst, decide (dlen = 0) with
      | some out, false =>
          let (out, total, calls) ← readLoop (toInt dlen) out 0 pieces
          some ⟨decide (total ≤ dlen), some out, some total, calls⟩
      | _, _ =>
          -- the bytes go to an array that nobody gets
          let out := Block.fresh UInt8 src.length
          let (_, total, calls) ← readLoop (toInt src.length) out 0 pieces
          some ⟨true, dst, some total, calls⟩
  | _, _ => some ⟨false, dst, inoutlen, []⟩

/-- The loop of `CryptoLibBase64Decode`. -/
def decodeLoop (buf : FCharBuffer) (delivered : Nat) :
    List (List UInt8) → Option (FCharBuffer × List ReadCall)
  | [] => some (buf, [⟨delivered, toInt buf.bufSize⟩])
  | piece :: pieces => do
      let read ← buf.write 0 (piece.map some)
      let (last, calls) ←
        decodeLoop (read.setLength (read.cursor + piece.length)) (delivered + piece.length) pieces
      some (last, ⟨delivered, toInt buf.bufSize⟩ :: calls)

/-- `CryptoLibBase64Decode`. -/
def cryptoLibBase64Decode (pieces : List (List UInt8)) (src : List UInt8) (buf : FCharBuffer) :
    Option (FCharBuffer × List ReadCall) := do
  let buf ← buf.reserve (UInt32.ofNat src.length)
  decodeLoop buf 0 pieces

/-! ## What the loops are for -/

/-- `BIO_read` delivers at least one byte and no more than the room that it is offered. -/
def Delivers (room : Int) (pieces : List (List UInt8)) : Prop :=
  ∀ piece ∈ pieces, piece ≠ [] ∧ piece.length ≤ room

/-- No call is offered more of `size` bytes than those that were not delivered to yet. -/
def WithinRoom (size : Nat) (calls : List ReadCall) : Prop :=
  ∀ call ∈ calls, call.room ≤ size - call.delivered

/-- The calls of a loop that offers the same room each time. -/
def callsOf (room : Int) (delivered : Nat) : List (List UInt8) → List ReadCall
  | [] => [⟨delivered, room⟩]
  | piece :: pieces => ⟨delivered, room⟩ :: callsOf room (delivered + piece.length) pieces

theorem callsOf_spec {room : Int} {delivered : Nat} {pieces : List (List UInt8)} :
    ⟨delivered + pieces.flatten.length, room⟩ ∈ callsOf room delivered pieces ∧
      ∀ call ∈ callsOf room delivered pieces,
        call.room = room ∧ call.delivered ≤ delivered + pieces.flatten.length := by
  induction pieces generalizing delivered with
  | nil => exact ⟨List.mem_cons_self, fun call hcall => by
      rw [List.mem_singleton.mp hcall]
      exact ⟨rfl, Nat.le_refl _⟩⟩
  | cons piece pieces ih =>
      obtain ⟨hlast, hall⟩ := @ih (delivered + piece.length)
      rw [List.flatten_cons, List.length_append, ← Nat.add_assoc]
      refine ⟨List.mem_cons_of_mem _ hlast, fun call hcall => ?_⟩
      rcases List.mem_cons.mp hcall with rfl | hcall
      · refine ⟨rfl, ?_⟩
        show delivered ≤ _
        omega
      · exact hall call hcall

/-- The last call is offered as much as the first. -/
theorem withinRoom_callsOf {room : Int} {size : Nat} {pieces : List (List UInt8)} :
    WithinRoom size (callsOf room 0 pieces) ↔ room + pieces.flatten.length ≤ size := by
  obtain ⟨hlast, hall⟩ := @callsOf_spec room 0 pieces
  rw [Nat.zero_add] at hlast hall
  constructor
  · intro h
    have hroom : room ≤ size - ((pieces.flatten.length : Nat) : Int) := h _ hlast
    omega
  · intro h call hcall
    obtain ⟨hroom, hdelivered⟩ := hall call hcall
    rw [hroom]
    omega

theorem toInt_le (size : Nat) : toInt size ≤ size := bmod_natCast_le size (2 ^ 32)

/-- What a call ends with is right: the content stands in the destination, its size is reported,
and no call of `BIO_read` was offered more than was left. -/
structure Reassembles (content : List UInt8) (size : Nat) (held : Block UInt8) (length : Nat)
    (calls : List ReadCall) : Prop where
  held : held.take content.length = content.map some
  length : length = content.length
  offered : WithinRoom size calls

/-- `crypto_lib_base64_decode` with a destination of `dlen` bytes is right. -/
def DecodesTo (pieces : List (List UInt8)) (src : List UInt8) (dst : Block UInt8) (dlen : Nat) :
    Prop :=
  ∃ result held length calls,
    crypto_lib_base64_decode pieces (some src) (some dst) (some dlen) =
      some ⟨result, some held, some length, calls⟩ ∧
    Reassembles pieces.flatten (if dlen = 0 then src.length else dlen) held length calls

/-- `CryptoLibBase64Decode` is right. -/
def DecodesInto (pieces : List (List UInt8)) (src : List UInt8) (buf : FCharBuffer) : Prop :=
  ∃ last calls held,
    cryptoLibBase64Decode pieces src buf = some (last, calls) ∧ last.view = some held ∧
    Reassembles pieces.flatten last.bufSize held last.cursor calls

/-! ## A destination of a given size -/

variable {pieces : List (List UInt8)} {room : Int} {size : Nat}

theorem Delivers.length_le {piece : List UInt8} (h : Delivers (toInt size) pieces)
    (hmem : piece ∈ pieces) : piece.length ≤ size := by
  have hroom := (h piece hmem).2
  have hle := toInt_le size
  omega

theorem Delivers.flatten_ne_nil (h : Delivers room pieces) (hne : pieces ≠ []) :
    0 < pieces.flatten.length := by
  obtain ⟨piece, rest, rfl⟩ := List.exists_cons_of_ne_nil hne
  have hpos := List.length_pos_of_ne_nil (h piece List.mem_cons_self).1
  rw [List.flatten_cons, List.length_append]
  omega

/-- Of several pieces, each is shorter than all together. -/
theorem Delivers.length_lt (h : Delivers room pieces) (htwo : 2 ≤ pieces.length)
    {piece : List UInt8} (hmem : piece ∈ pieces) : piece.length < pieces.flatten.length := by
  obtain ⟨before, after, rfl⟩ := List.append_of_mem hmem
  have hother : before ++ after ≠ [] := by
    rw [List.length_append, List.length_cons] at htwo
    rw [ne_eq, List.append_eq_nil_iff, ← List.length_eq_zero_iff, ← List.length_eq_zero_iff]
    omega
  have hdelivers : Delivers room (before ++ after) := fun other hin => h other <| by
    rcases List.mem_append.mp hin with hin | hin
    · exact List.mem_append_left _ hin
    · exact List.mem_append_right _ (List.mem_cons_of_mem _ hin)
  have hpos := hdelivers.flatten_ne_nil hother
  rw [List.flatten_append, List.length_append] at hpos
  rw [List.flatten_append, List.flatten_cons, List.length_append, List.length_append]
  omega

/-- The loop counts every byte, and does not touch a cell behind the end of each piece. -/
theorem readLoop_spec {out : Block UInt8} {len : Nat}
    (h : ∀ piece ∈ pieces, piece.length ≤ out.length) :
    ∃ out', readLoop room out len pieces =
        some (out', len + pieces.flatten.length, callsOf room len pieces) ∧
      ∀ i, (∀ piece ∈ pieces, piece.length ≤ i) → out'[i]? = out[i]? := by
  induction pieces generalizing out len with
  | nil => exact ⟨out, rfl, fun _ _ => rfl⟩
  | cons piece pieces ih =>
      obtain ⟨hpiece, hrest⟩ := List.forall_mem_cons.mp h
      obtain ⟨next, hnext, hlength, -⟩ :=
        Block.store_zero (show (piece.map some).length ≤ out.length by rwa [List.length_map])
      obtain ⟨out', hout', hcells⟩ :=
        @ih next (len + piece.length) fun other hin => by
          rw [hlength]
          exact hrest other hin
      refine ⟨out', ?_, fun i hi => ?_⟩
      · rw [readLoop, hnext, Option.bind_eq_bind, Option.bind_some, hout', List.flatten_cons,
          List.length_append, ← Nat.add_assoc]
        rfl
      · obtain ⟨hfirst, hothers⟩ := List.forall_mem_cons.mp hi
        rw [hcells i hothers, Block.getElem?_store hnext, if_neg]
        rw [List.length_map]
        omega

/-- Content that comes in one piece is right in every destination. -/
theorem readLoop_held (h : Delivers (toInt size) pieces) (hone : pieces.length ≤ 1)
    {out : Block UInt8} (hout : size ≤ out.length) :
    ∃ out' calls, readLoop room out 0 pieces = some (out', pieces.flatten.length, calls) ∧
      out'.take pieces.flatten.length = pieces.flatten.map some := by
  match pieces, hone with
  | [], _ => exact ⟨out, _, rfl, rfl⟩
  | [piece], _ =>
      have hfit : (piece.map some).length ≤ out.length := by
        rw [List.length_map]
        exact (h.length_le List.mem_cons_self).trans hout
      obtain ⟨out', hstore, -, hprefix⟩ := Block.store_zero hfit
      refine ⟨out', [⟨0, room⟩, ⟨0 + piece.length, room⟩], ?_, ?_⟩
      · rw [readLoop, hstore]
        simp [readLoop]
      · have htake := List.prefix_iff_eq_take.mp hprefix
        rw [List.length_map] at htake
        rw [List.flatten_cons, List.flatten_nil, List.append_nil, ← htake]

/-- The last byte of several pieces is not written. -/
theorem readLoop_not_held (h : Delivers (toInt size) pieces) (htwo : 2 ≤ pieces.length)
    (hsize : pieces.flatten.length ≤ size) {out' : Block UInt8} {total : Nat}
    {calls : List ReadCall}
    (hloop : readLoop room (Block.fresh UInt8 size) 0 pieces = some (out', total, calls)) :
    out'.take pieces.flatten.length ≠ pieces.flatten.map some := by
  intro hheld
  obtain ⟨out'', hspec, hcells⟩ := @readLoop_spec pieces room (Block.fresh UInt8 size) 0
    fun piece hmem => by
      rw [Block.length_fresh]
      exact h.length_le hmem
  rw [hspec] at hloop
  cases hloop
  have hne : pieces ≠ [] := List.ne_nil_of_length_pos (by omega)
  have hpos := h.flatten_ne_nil hne
  have hcell := hcells (pieces.flatten.length - 1) fun piece hmem =>
    Nat.le_sub_one_of_lt (h.length_lt htwo hmem)
  have hlast := congrArg (·[pieces.flatten.length - 1]?) hheld
  simp only [List.getElem?_take_of_lt (Nat.sub_one_lt_of_lt hpos), hcell, Block.fresh,
    List.getElem?_map] at hlast
  rw [List.getElem?_replicate_of_lt (by omega), List.getElem?_eq_getElem (by omega)] at hlast
  cases hlast

/-- `crypto_lib_base64_decode` with a destination that has room. -/
theorem decode_eq {dlen : Nat} (hdlen : dlen ≠ 0) (src : List UInt8) {out out' : Block UInt8}
    {total : Nat} {calls : List ReadCall}
    (h : readLoop (toInt dlen) out 0 pieces = some (out', total, calls)) :
    crypto_lib_base64_decode pieces (some src) (some out) (some dlen) =
      some ⟨decide (total ≤ dlen), some out', some total, calls⟩ := by
  unfold crypto_lib_base64_decode
  simp only [decide_eq_false hdlen, h]
  rfl

theorem decodesTo_zero (src : List UInt8) (dst : Block UInt8) : DecodesTo [] src dst 0 := by
  refine ⟨true, dst, 0, callsOf (toInt src.length) 0 [], rfl, rfl, rfl, ?_⟩
  rw [if_pos rfl, withinRoom_callsOf, List.flatten_nil, List.length_nil, Int.natCast_zero,
    Int.add_zero]
  exact toInt_le src.length

theorem decodesTo_iff {dlen : Nat} (hsize : pieces.flatten.length ≤ dlen)
    (h : Delivers (toInt dlen) pieces) (src : List UInt8) :
    (∀ dst : Block UInt8, dlen ≤ dst.length → DecodesTo pieces src dst dlen) ↔
      pieces.length ≤ 1 ∧ toInt dlen + pieces.flatten.length ≤ dlen := by
  by_cases hdlen : dlen = 0
  · subst hdlen
    have hnil : pieces = [] := by
      by_contra hne
      have hpos := h.flatten_ne_nil hne
      omega
    subst hnil
    exact ⟨fun _ => ⟨Nat.zero_le 1, Int.le_refl _⟩, fun _ dst _ => decodesTo_zero src dst⟩
  · have hloop : ∀ out : Block UInt8, dlen ≤ out.length → ∃ out',
        readLoop (toInt dlen) out 0 pieces =
          some (out', pieces.flatten.length, callsOf (toInt dlen) 0 pieces) := by
      intro out hout
      obtain ⟨out', hspec, -⟩ := @readLoop_spec pieces (toInt dlen) out 0
        fun piece hmem => (h.length_le hmem).trans hout
      rw [Nat.zero_add] at hspec
      exact ⟨out', hspec⟩
    rw [← withinRoom_callsOf]
    constructor
    · intro hall
      -- a destination that nothing was written to shows both parts
      have hfresh : dlen ≤ (Block.fresh UInt8 dlen).length := by rw [Block.length_fresh]
      obtain ⟨out', hspec⟩ := hloop _ hfresh
      obtain ⟨result, held, length, calls, hdecode, hright⟩ := hall _ hfresh
      rw [decode_eq hdlen src hspec] at hdecode
      cases hdecode
      refine ⟨Nat.le_of_not_lt fun htwo => ?_, ?_⟩
      · exact readLoop_not_held h htwo hsize hspec hright.held
      · have hoffered := hright.offered
        rwa [if_neg hdlen] at hoffered
    · rintro ⟨hone, hoffered⟩ dst hdst
      obtain ⟨out', calls, hspec, hheld⟩ := @readLoop_held _ (toInt dlen) _ h hone _ hdst
      obtain ⟨out'', hsame⟩ := hloop dst hdst
      rw [hspec] at hsame
      cases hsame
      refine ⟨_, _, _, _, decode_eq hdlen src hspec, hheld, rfl, ?_⟩
      rwa [if_neg hdlen]

/-! ## A character buffer -/

/-- The loop keeps the size of the buffer and offers all of it each time. -/
theorem decodeLoop_spec {buf last : FCharBuffer} {delivered : Nat} {calls : List ReadCall}
    (h : decodeLoop buf delivered pieces = some (last, calls)) :
    last.bufSize = buf.bufSize ∧ calls = callsOf (toInt buf.bufSize) delivered pieces := by
  induction pieces generalizing buf delivered calls with
  | nil =>
      cases h
      exact ⟨rfl, rfl⟩
  | cons piece pieces ih =>
      obtain ⟨read, hread, h⟩ := Option.bind_eq_some_iff.mp h
      obtain ⟨⟨last', calls'⟩, hloop, h⟩ := Option.bind_eq_some_iff.mp h
      cases h
      have hsize : (read.setLength (read.cursor + piece.length)).bufSize = buf.bufSize := by
        rw [← (FCharBuffer.write_frame hread).1]
        unfold FCharBuffer.setLength
        split <;> rfl
      obtain ⟨hlast, hcalls⟩ := ih hloop
      rw [hsize] at hlast hcalls
      exact ⟨hlast, by rw [hcalls]; rfl⟩

/-- While the buffer has room for the content, its loop does what the other one does. -/
theorem decodeLoop_eq {block : Block UInt8} {bufSize readCursor : Nat}
    (hblock : block.length = bufSize) {len : Nat} (h : len + pieces.flatten.length ≤ bufSize) :
    decodeLoop ⟨bufSize, some block, len, readCursor⟩ len pieces =
      (readLoop (toInt bufSize) block len pieces).map fun (out, total, calls) =>
        (⟨bufSize, some out, total, readCursor⟩, calls) := by
  induction pieces generalizing block len with
  | nil => rfl
  | cons piece pieces ih =>
      rw [List.flatten_cons, List.length_append] at h
      obtain ⟨next, hnext, hlength, -⟩ := Block.store_zero
        (show (piece.map some).length ≤ block.length by rw [List.length_map]; omega)
      have hwrite : FCharBuffer.write ⟨bufSize, some block, len, readCursor⟩ 0 (piece.map some) =
          some ⟨bufSize, some next, len, readCursor⟩ := by
        rw [FCharBuffer.write]
        dsimp only
        rw [if_pos (by rw [List.length_map]; omega), hnext]
        rfl
      have hset : FCharBuffer.setLength ⟨bufSize, some next, len, readCursor⟩
          (len + piece.length) = ⟨bufSize, some next, len + piece.length, readCursor⟩ :=
        if_pos (by dsimp only; omega)
      rw [decodeLoop, hwrite, Option.bind_eq_bind, Option.bind_some]
      dsimp only
      rw [hset, ih (hlength.trans hblock) (by omega), readLoop, hnext]
      simp only [Option.bind_eq_bind, Option.bind_some]
      cases readLoop (toInt bufSize) next (len + piece.length) pieces <;> rfl

/-- The buffer shows the content, whatever stood in its memory, when it comes in one piece. -/
theorem decodeLoop_view_iff {readCursor : Nat} (h : Delivers (toInt size) pieces)
    (hsize : pieces.flatten.length ≤ size) :
    (∀ block : Block UInt8, block.length = size →
      ∃ last calls, decodeLoop ⟨size, some block, 0, readCursor⟩ 0 pieces = some (last, calls) ∧
        last.view = some (pieces.flatten.map some)) ↔ pieces.length ≤ 1 := by
  constructor
  · intro hall
    refine Nat.le_of_not_lt fun htwo => ?_
    obtain ⟨last, calls, hlast, hview⟩ := hall _ (Block.length_fresh size)
    rw [decodeLoop_eq (Block.length_fresh size) (by rwa [Nat.zero_add])] at hlast
    obtain ⟨⟨out', total, calls'⟩, hloop, hresult⟩ := Option.map_eq_some_iff.mp hlast
    cases hresult
    have htake : (if total ≤ out'.length then some (out'.take total) else none) =
        some (pieces.flatten.map some) := hview
    split at htake
    · have hheld := Option.some.inj htake
      have hlength := congrArg List.length hheld
      rw [List.length_map, List.length_take, Nat.min_eq_left (by assumption)] at hlength
      exact readLoop_not_held h htwo hsize hloop (hlength ▸ hheld)
    · cases htake
  · intro hone block hblock
    obtain ⟨out', calls, hloop, hheld⟩ :=
      @readLoop_held _ (toInt size) _ h hone _ (Nat.le_of_eq hblock.symm)
    refine ⟨⟨size, some out', pieces.flatten.length, readCursor⟩, calls, ?_, ?_⟩
    · rw [decodeLoop_eq hblock (by rwa [Nat.zero_add]), hloop]
      rfl
    · have hlength := congrArg List.length hheld
      rw [List.length_take, List.length_map] at hlength
      show (if pieces.flatten.length ≤ out'.length then some (out'.take pieces.flatten.length)
        else none) = _
      rw [if_pos (by omega), hheld]

/-- A buffer without content is filled rightly only with nothing. -/
theorem decodesInto_iff {buf : FCharBuffer} (hbuf : buf.Sound) (hempty : buf.cursor = 0)
    {src : List UInt8}
    (h : Delivers (toInt (max buf.bufSize (src.length % 2 ^ 32))) pieces) :
    DecodesInto pieces src buf ↔ pieces = [] := by
  obtain ⟨reserved, hreserve, hsound, hcursor, hsize⟩ := hbuf.reserve (UInt32.ofNat src.length)
  rw [UInt32.toNat_ofNat'] at hsize
  have hdecode : cryptoLibBase64Decode pieces src buf = decodeLoop reserved 0 pieces := by
    rw [cryptoLibBase64Decode, hreserve]
    rfl
  constructor
  · rintro ⟨last, calls, held, hloop, -, hright⟩
    rw [hdecode] at hloop
    obtain ⟨hlast, rfl⟩ := decodeLoop_spec hloop
    have hoffered := withinRoom_callsOf.mp hright.offered
    rw [← hsize] at h
    by_contra hne
    obtain ⟨piece, hmem⟩ := List.exists_mem_of_ne_nil pieces hne
    have hpiece := h piece hmem
    have hpos := List.length_pos_of_ne_nil hpiece.1
    have hroom : toInt reserved.bufSize = reserved.bufSize :=
      bmod_natCast_of_pos hsound.bufSize_lt (show 0 < toInt reserved.bufSize by omega)
    have htotal := h.flatten_ne_nil hne
    omega
  · rintro rfl
    obtain ⟨held, hheld⟩ := hsound.read (Nat.zero_le _)
    refine ⟨reserved, callsOf (toInt reserved.bufSize) 0 [], held, hdecode, ?_, rfl, ?_, ?_⟩
    · rw [FCharBuffer.view, hcursor, hempty]
      exact hheld
    · exact hcursor.trans hempty
    · rw [withinRoom_callsOf, List.flatten_nil, List.length_nil, Int.natCast_zero, Int.add_zero]
      exact toInt_le reserved.bufSize

/-! ## Both functions -/

/-- The functions are right about decoded content exactly when it is empty; a destination that is
too large for an `int` may also be offered right for content that comes in one piece. -/
theorem base64_decode_iff (pieces : List (List UInt8)) (src : List UInt8) :
    (∀ dlen, pieces.flatten.length ≤ dlen → Delivers (toInt dlen) pieces →
      ((∀ dst : Block UInt8, dlen ≤ dst.length → DecodesTo pieces src dst dlen) ↔
        pieces.length ≤ 1 ∧ toInt dlen + pieces.flatten.length ≤ dlen)) ∧
    ∀ buf : FCharBuffer, buf.Sound → buf.cursor = 0 →
      Delivers (toInt (max buf.bufSize (src.length % 2 ^ 32))) pieces →
      (DecodesInto pieces src buf ↔ pieces = []) :=
  ⟨fun _ hsize h => decodesTo_iff hsize h src,
    fun _ hbuf hempty h => decodesInto_iff hbuf hempty h⟩

theorem base64_decode_nothing :
    ((∀ dst : Block UInt8, 4 ≤ dst.length → DecodesTo [] [61] dst 4) ↔
      ([] : List (List UInt8)).length ≤ 1 ∧
        toInt 4 + ([] : List (List UInt8)).flatten.length ≤ 4) ∧
    (DecodesInto [] [61] .new ↔ ([] : List (List UInt8)) = []) :=
  ⟨(base64_decode_iff [] [61]).1 4 (Nat.zero_le 4) (fun _ h => nomatch h),
    (base64_decode_iff [] [61]).2 .new FCharBuffer.sound_new rfl (fun _ h => nomatch h)⟩

/-- Two pieces in a destination of two bytes: the second is written over the first. -/
theorem not_decodes_two :
    Delivers (toInt 2) [[97], [98]] ∧
      crypto_lib_base64_decode [[97], [98]] (some [89, 87, 73, 61]) (some [none, none]) (some 2) =
        some ⟨true, some [some 98, none], some 2, [⟨0, 2⟩, ⟨1, 2⟩, ⟨2, 2⟩]⟩ ∧
      ¬ DecodesTo [[97], [98]] [89, 87, 73, 61] [none, none] 2 ∧
      ¬ DecodesInto [[97], [98]] [89, 87, 73, 61] .new := by
  have hpieces : Delivers 2 [[97], [98]] := by
    intro piece hmem
    rcases List.mem_cons.mp hmem with rfl | hmem
    · exact ⟨by decide, by decide⟩
    · rw [List.mem_singleton.mp hmem]
      exact ⟨by decide, by decide⟩
  have hcode : crypto_lib_base64_decode [[97], [98]] (some [89, 87, 73, 61])
      (some [none, none]) (some 2) =
        some ⟨true, some [some 98, none], some 2, [⟨0, 2⟩, ⟨1, 2⟩, ⟨2, 2⟩]⟩ := by
    decide
  refine ⟨hpieces, hcode, ?_, fun h => ?_⟩
  · rintro ⟨result, held, length, calls, hdecode, hright⟩
    rw [hcode, Option.some.injEq, Decoded.mk.injEq, Option.some.injEq] at hdecode
    have hheld := hright.held
    rw [← hdecode.2.1] at hheld
    exact absurd hheld (by decide)
  · have hcap : toInt (max FCharBuffer.new.bufSize (4 % 2 ^ 32)) = 4 := by decide
    have hroom : Delivers 4 [[97], [98]] :=
      fun piece hmem => ⟨(hpieces piece hmem).1, Int.le_trans (hpieces piece hmem).2 (by decide)⟩
    cases (decodesInto_iff FCharBuffer.sound_new rfl (hcap ▸ hroom)).mp h

end Utilpp.Crypto
