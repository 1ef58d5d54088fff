import Utilpp.Buffer.CharBuffer
import Utilpp.Lib.Transition

/-!
# The character buffer refines a byte list

`Holds b l` relates a buffer to the bytes it stands for: the cursor is their number and the
allocation, of exactly `bufSize` bytes, begins with them. Every operation is shown to be defined
on such a buffer, that is to write below the capacity only, and to leave a buffer that holds the
list which the same operation on lists gives. `char_buffer_refinement` carries this over runs.
-/

namespace Utilpp.Buffer

open Lib

namespace FCharBuffer

/-- The allocation has `bufSize` bytes and begins with `known`; without one the size is zero. -/
def Backed (b : FCharBuffer) (known : List (Option UInt8)) : Prop :=
  match b.pBuf with
  | none => b.bufSize = 0 ∧ known = []
  | some block => block.length = b.bufSize ∧ 0 < b.bufSize ∧ known <+: block

/-- The buffer stands for the list `l`. -/
structure Holds (b : FCharBuffer) (l : List UInt8) : Prop where
  cursor : b.cursor = l.length
  backed : b.Backed (l.map some)

/-- The number of known bytes is bounded by the capacity. -/
theorem Backed.length_le {b : FCharBuffer} {known : List (Option UInt8)} (h : b.Backed known) :
    known.length ≤ b.bufSize := by
  unfold Backed at h
  split at h
  · rw [h.2]
    exact Nat.zero_le _
  · rw [← h.1]
    exact h.2.2.length_le

/-- Fewer bytes are known as well. -/
theorem Backed.shorter {b : FCharBuffer} {known first : List (Option UInt8)} (h : b.Backed known)
    (hfirst : first <+: known) : b.Backed first := by
  unfold Backed at h ⊢
  split at h
  · exact ⟨h.1, List.prefix_nil.mp (h.2 ▸ hfirst)⟩
  · exact ⟨h.1, h.2.1, hfirst.trans h.2.2⟩

/-- Only the allocation and its size matter. -/
theorem Backed.of_eq {b b' : FCharBuffer} {known : List (Option UInt8)} (h : b.Backed known)
    (hpBuf : b'.pBuf = b.pBuf) (hbufSize : b'.bufSize = b.bufSize) : b'.Backed known := by
  unfold Backed at h ⊢
  rw [hpBuf, hbufSize]
  exact h

theorem backed_some {b : FCharBuffer} {block : Block UInt8} {known : List (Option UInt8)}
    (hpBuf : b.pBuf = some block) (hlength : block.length = b.bufSize) (hsize : 0 < b.bufSize)
    (hknown : known <+: block) : b.Backed known := by
  unfold Backed
  rw [hpBuf]
  exact ⟨hlength, hsize, hknown⟩

/-- A write right behind the known bytes and below the capacity makes them known too. -/
theorem write_spec {b : FCharBuffer} {known cells : List (Option UInt8)} (h : b.Backed known)
    (hroom : known.length + cells.length ≤ b.bufSize) :
    ∃ b', b.write known.length cells = some b' ∧ b'.Backed (known ++ cells) ∧
      b'.bufSize = b.bufSize ∧ b'.cursor = b.cursor := by
  have hb := h
  unfold Backed at hb
  unfold write
  cases hbuf : b.pBuf with
  | none =>
      simp only [hbuf] at hb
      have hcells : cells = [] := List.eq_nil_of_length_eq_zero (by omega)
      refine ⟨b, if_pos hcells, ?_, rfl, rfl⟩
      rw [hcells, List.append_nil]
      exact h
  | some block =>
      simp only [hbuf] at hb
      obtain ⟨block', hstore, hlength, hknown⟩ := Block.store_after hb.2.2 (hb.1 ▸ hroom)
      refine ⟨{ b with pBuf := some block' }, ?_, ?_, rfl, rfl⟩
      · simp only [if_pos hroom, hstore, Option.map_some]
      · exact backed_some rfl (hlength.trans hb.1) hb.2.1 hknown

/-- A write at the start of the allocation. -/
theorem write_zero_spec {b : FCharBuffer} {known cells : List (Option UInt8)} (h : b.Backed known)
    (hroom : cells.length ≤ b.bufSize) :
    ∃ b', b.write 0 cells = some b' ∧ b'.Backed cells ∧
      b'.bufSize = b.bufSize ∧ b'.cursor = b.cursor := by
  have hwrite := @write_spec b [] cells (h.shorter List.nil_prefix)
    (by rw [List.length_nil, Nat.zero_add]; exact hroom)
  rwa [List.length_nil, List.nil_append] at hwrite

theorem read_spec {b : FCharBuffer} {known : List (Option UInt8)} (h : b.Backed known) :
    b.read known.length = some known := by
  unfold Backed at h
  unfold read
  cases hbuf : b.pBuf with
  | none =>
      simp only [hbuf] at h
      simp only [h.2, List.length_nil, ↓reduceIte]
  | some block =>
      simp only [hbuf] at h
      exact Block.load_known h.2.2

/-- A reallocation with room for what it copies begins with the bytes copied, none when it does
not copy. -/
theorem reallocate_spec {b : FCharBuffer} {known : List (Option UInt8)} {desiredSize : Nat}
    {copies : Bool} (h : b.Backed known) (hroom : known.length ≤ desiredSize)
    (hcopies : copies = false → known = []) :
    ∃ newbuf, b.reallocate desiredSize known.length copies = some newbuf ∧
      newbuf.length = desiredSize ∧ known <+: newbuf := by
  unfold reallocate
  cases copies with
  | false =>
      rw [hcopies rfl]
      exact ⟨_, rfl, Block.length_fresh _, List.nil_prefix⟩
  | true =>
      obtain ⟨newbuf, hstore, hnewbuf⟩ := Block.store_fresh hroom
      refine ⟨newbuf, ?_, hnewbuf⟩
      rw [if_pos rfl, read_spec h]
      exact hstore

/-- `Reserve` keeps the bytes below the cursor and reaches the capacity it is asked for. -/
theorem reserve_spec {b : FCharBuffer} {known : List (Option UInt8)} (h : b.Backed known)
    (hcursor : b.cursor = known.length) (size : UInt32) :
    ∃ b', b.reserve size = some b' ∧ b'.Backed known ∧ b'.cursor = b.cursor ∧
      size.toNat ≤ b'.bufSize := by
  have hlength := h.length_le
  unfold reserve
  dsimp only
  split
  · rename_i hle
    exact ⟨b, rfl, h, rfl, hle⟩
  · rename_i hgrow
    obtain ⟨newbuf, hnewbuf, hsize, hknown⟩ :=
      @reallocate_spec b known size.toNat (decide (0 < b.bufSize)) h (by omega)
        (fun hzero => List.eq_nil_of_length_eq_zero (by have := of_decide_eq_false hzero; omega))
    rw [hcursor, hnewbuf]
    exact ⟨_, rfl, backed_some rfl hsize (by dsimp only; omega) hknown, rfl, Nat.le_refl _⟩

/-- The reallocation in `Resize` copies a part of the bytes below the cursor. -/
theorem grow_spec {b : FCharBuffer} {known : List (Option UInt8)} (h : b.Backed known)
    (hcursor : b.cursor = known.length) (desiredSize : Nat) :
    ∃ b' copied, b.grow desiredSize = some (b', copied.length) ∧ b'.Backed copied ∧
      copied <+: known ∧ copied.length ≤ desiredSize ∧ desiredSize ≤ b'.bufSize := by
  unfold grow
  split
  · rename_i hgrow
    have hu32 : (UInt32.ofNat b.cursor).toNat ≤ b.cursor := Nat.mod_le _ _
    dsimp only
    generalize hcopySize :
      (if b.pBuf.isSome then min (UInt32.ofNat b.cursor).toNat desiredSize else 0) = copySize
    have hle : copySize ≤ known.length ∧ copySize ≤ desiredSize := by
      split at hcopySize <;> omega
    have hcopied : (known.take copySize).length = copySize := List.length_take_of_le hle.1
    obtain ⟨newbuf, hnewbuf, hsize, hbegin⟩ :=
      @reallocate_spec b (known.take copySize) desiredSize (decide (0 < copySize))
        (h.shorter (List.take_prefix copySize known)) (by omega)
        (fun hzero => List.eq_nil_of_length_eq_zero (by have := of_decide_eq_false hzero; omega))
    rw [hcopied] at hnewbuf
    rw [hnewbuf]
    refine ⟨_, known.take copySize, by rw [hcopied]; rfl, ?_, List.take_prefix _ _, by omega,
      Nat.le_refl _⟩
    exact backed_some rfl hsize (by dsimp only; omega) hbegin
  · rename_i hfits
    exact ⟨b, [], rfl, h.shorter List.nil_prefix, List.nil_prefix, Nat.zero_le _, by omega⟩

/-- `Resize` leaves a part of the bytes it had, and zeros up to the new size. -/
theorem resize_spec {b : FCharBuffer} {known : List (Option UInt8)} (h : b.Backed known)
    (hcursor : b.cursor = known.length) (size : UInt32) :
    ∃ b' copied, b.resize size = some b' ∧ copied <+: known ∧
      b'.Backed (copied ++ List.replicate (size.toNat - copied.length) (some 0)) ∧
      b'.cursor = size.toNat ∧ size.toNat ≤ b'.bufSize := by
  obtain ⟨grown, copied, hgrow, hbacked, hcopied, hle, hsize⟩ := grow_spec h hcursor size.toNat
  obtain ⟨b', hwrite, hbacked', hbufSize, -⟩ :=
    @write_spec grown copied (List.replicate (size.toNat - copied.length) (some 0)) hbacked
      (by rw [List.length_replicate]; omega)
  refine ⟨{ b' with cursor := size.toNat, readCursor := 0 }, copied, ?_, hcopied,
    hbacked'.of_eq rfl rfl, rfl, ?_⟩
  · simp only [resize, hgrow, hwrite, Option.bind_eq_bind, Option.bind_some]
  · show size.toNat ≤ b'.bufSize
    omega

/-! ## The operations -/

theorem new_holds : new.Holds [] := ⟨rfl, rfl, rfl⟩

theorem toNat_ofNat {n : Nat} (h : n < 2 ^ 32) : (UInt32.ofNat n).toNat = n :=
  UInt32.toNat_ofNat_of_lt h

theorem sized_spec {size : Nat} (hsize : size < 2 ^ 30) :
    ∃ b', sized size = some b' ∧ b'.Holds (List.replicate size 0) := by
  obtain ⟨b', copied, hresize, hcopied, hbacked, hcursor, -⟩ :=
    resize_spec new_holds.backed new_holds.cursor (UInt32.ofNat size)
  rw [toNat_ofNat (by omega)] at hbacked hcursor
  have hnil : copied = [] := List.prefix_nil.mp hcopied
  rw [hnil, List.nil_append, List.length_nil, Nat.sub_zero] at hbacked
  refine ⟨b', hresize, ?_, ?_⟩
  · rw [hcursor, List.length_replicate]
  · rw [List.map_replicate]
    exact hbacked

/-- A write at the cursor, with room for it, appends. -/
theorem extend_spec {b : FCharBuffer} {l bytes : List UInt8} (h : b.Holds l)
    (hroom : l.length + bytes.length ≤ b.bufSize) :
    ∃ b', b.write b.cursor (bytes.map some) = some b' ∧ b'.cursor = b.cursor ∧
      b'.Backed ((l ++ bytes).map some) := by
  obtain ⟨b', hwrite, hbacked, -, hcursor⟩ :=
    @write_spec b (l.map some) (bytes.map some) h.backed (by simpa using hroom)
  rw [List.length_map, ← h.cursor] at hwrite
  rw [← List.map_append] at hbacked
  exact ⟨b', hwrite, hcursor, hbacked⟩

theorem Holds.reserve_spec {b : FCharBuffer} {l : List UInt8} (h : b.Holds l) (size : UInt32) :
    ∃ b', b.reserve size = some b' ∧ b'.Holds l ∧ size.toNat ≤ b'.bufSize := by
  have hlength : b.cursor = (l.map some).length := by rw [List.length_map, h.cursor]
  obtain ⟨b', hreserve, hbacked, hcursor, hsize⟩ :=
    FCharBuffer.reserve_spec h.backed hlength size
  exact ⟨b', hreserve, ⟨hcursor.trans h.cursor, hbacked⟩, hsize⟩

/-- After the growth check of an operation there is room for `need` bytes: either the capacity
sufficed, or `Reserve` was called with enough and with a size that its parameter can hold. -/
theorem Holds.reserveWhen_spec {b : FCharBuffer} {l : List UInt8} (h : b.Holds l) {full : Bool}
    {size need : Nat} (hfull : full = true → need ≤ size ∧ size < 2 ^ 32)
    (hfits : full = false → need ≤ b.bufSize) :
    ∃ b', b.reserveWhen full size = some b' ∧ b'.Holds l ∧ need ≤ b'.bufSize := by
  unfold reserveWhen
  cases full with
  | false => exact ⟨b, rfl, h, hfits rfl⟩
  | true =>
      obtain ⟨hneed, hsize⟩ := hfull rfl
      obtain ⟨b', hreserve, hholds, hcapacity⟩ := h.reserve_spec (UInt32.ofNat size)
      rw [toNat_ofNat hsize] at hcapacity
      exact ⟨b', hreserve, hholds, Nat.le_trans hneed hcapacity⟩

theorem append_spec {b : FCharBuffer} {l bytes : List UInt8} (h : b.Holds l)
    (hsize : (l ++ bytes).length < 2 ^ 30) :
    ∃ b', b.append (bytes.map some) = some b' ∧ b'.Holds (l ++ bytes) := by
  rw [List.length_append] at hsize
  have hcursor := h.cursor
  obtain ⟨b', hreserve, hholds, hcapacity⟩ :=
    @Holds.reserveWhen_spec b l h (b.bufSize = 0 ∨ b.bufSize - 1 < bytes.length + b.cursor)
      (max b.getIncreasedSize (bytes.length + b.cursor + 2)) (l.length + bytes.length)
      (fun hfull => by
        have := of_decide_eq_true hfull
        have hincreased : b.getIncreasedSize ≤ 2 ^ 31 := by
          unfold getIncreasedSize
          split <;> omega
        omega)
      (fun hfits => by
        have := of_decide_eq_false hfits
        omega)
  obtain ⟨b'', hwrite, hcursor', hbacked⟩ := extend_spec hholds hcapacity
  unfold append
  simp only [List.length_map]
  split
  · rename_i hempty
    rw [List.eq_nil_of_length_eq_zero hempty, List.append_nil]
    exact ⟨b, rfl, h⟩
  · refine ⟨{ b'' with cursor := b''.cursor + bytes.length }, ?_, ?_, hbacked.of_eq rfl rfl⟩
    · simp only [Option.bind_eq_bind, hreserve, Option.bind_some, hwrite]
    · show b''.cursor + bytes.length = (l ++ bytes).length
      rw [hcursor', hholds.cursor, List.length_append]

theorem put_spec {b : FCharBuffer} {l : List UInt8} (h : b.Holds l) (c : UInt8)
    (hsize : (l ++ [c]).length < 2 ^ 30) :
    ∃ b', b.put c = some b' ∧ b'.Holds (l ++ [c]) := by
  rw [List.length_append, List.length_singleton] at hsize
  have hcursor := h.cursor
  have hlength := h.backed.length_le
  rw [List.length_map] at hlength
  obtain ⟨b', hreserve, hholds, hcapacity⟩ :=
    @Holds.reserveWhen_spec b l h (b.bufSize = 0 ∨ b.bufSize - 1 ≤ b.cursor)
      b.getIncreasedSize (l.length + 1)
      (fun hfull => by
        have := of_decide_eq_true hfull
        unfold getIncreasedSize
        split <;> omega)
      (fun hfits => by
        have := of_decide_eq_false hfits
        omega)
  obtain ⟨b'', hwrite, hcursor', hbacked⟩ := @extend_spec b' l [c] hholds hcapacity
  refine ⟨{ b'' with cursor := b''.cursor + 1 }, ?_, ?_, hbacked.of_eq rfl rfl⟩
  · rw [List.map_singleton] at hwrite
    simp only [put, hreserve, Option.bind_eq_bind, Option.bind_some, hwrite]
  · show b''.cursor + 1 = (l ++ [c]).length
    rw [hcursor', hholds.cursor, List.length_append, List.length_singleton]

theorem replace_spec {b : FCharBuffer} {known : List (Option UInt8)} {bytes : List UInt8}
    (h : b.Backed known) (hroom : bytes.length ≤ b.bufSize) :
    ∃ b', b.replace (bytes.map some) = some b' ∧ b'.Holds bytes := by
  unfold replace
  simp only [List.length_map]
  split
  · obtain ⟨b', hwrite, hbacked, -⟩ :=
      @write_zero_spec b known (bytes.map some) h (by rwa [List.length_map])
    rw [hwrite]
    exact ⟨_, rfl, rfl, hbacked.of_eq rfl rfl⟩
  · rename_i hempty
    have hnil : bytes = [] := List.eq_nil_of_length_eq_zero (by omega)
    rw [hnil]
    exact ⟨_, rfl, rfl, (h.shorter List.nil_prefix).of_eq rfl rfl⟩

theorem reserveAssign_spec {b : FCharBuffer} {l bytes : List UInt8} (h : b.Holds l)
    (hsize : bytes.length < 2 ^ 30) :
    ∃ b', b.reserveAssign (bytes.map some) = some b' ∧ b'.Holds bytes := by
  obtain ⟨b', hreserve, hholds, hcapacity⟩ :=
    h.reserve_spec (UInt32.ofNat (bytes.length + 2))
  rw [toNat_ofNat (by omega)] at hcapacity
  obtain ⟨b'', hreplace, hholds'⟩ := @replace_spec b' _ bytes hholds.backed (by omega)
  refine ⟨b'', ?_, hholds'⟩
  simp only [reserveAssign, List.length_map, hreserve, Option.bind_eq_bind, Option.bind_some,
    hreplace]

theorem assign_spec {b : FCharBuffer} {l bytes : List UInt8} (h : b.Holds l)
    (hsize : bytes.length < 2 ^ 30) :
    ∃ b', b.assign (bytes.map some) = some b' ∧ b'.Holds bytes := by
  obtain ⟨b', copied, hresize, -, hbacked, -, hcapacity⟩ :=
    resize_spec h.backed (by rw [List.length_map, h.cursor]) (UInt32.ofNat (bytes.length + 2))
  rw [toNat_ofNat (by omega)] at hcapacity
  obtain ⟨b'', hreplace, hholds'⟩ := @replace_spec b' _ bytes hbacked (by omega)
  refine ⟨b'', ?_, hholds'⟩
  simp only [assign, List.length_map, hresize, Option.bind_eq_bind, Option.bind_some, hreplace]

theorem view_spec {b : FCharBuffer} {l : List UInt8} (h : b.Holds l) :
    b.view = some (l.map some) := by
  have hread := read_spec h.backed
  rwa [List.length_map, ← h.cursor] at hread

theorem copy_spec {b r : FCharBuffer} {l bytes : List UInt8} (h : b.Holds l) (hr : r.Holds bytes)
    (hsize : bytes.length < 2 ^ 30) : ∃ b', b.copy r = some b' ∧ b'.Holds bytes := by
  obtain ⟨b', hassign, hholds⟩ := assign_spec h hsize
  refine ⟨{ b' with readCursor := r.readCursor }, ?_, hholds.cursor, hholds.backed.of_eq rfl rfl⟩
  simp only [copy, view_spec hr, Option.bind_eq_bind, Option.bind_some, hassign]

theorem clear_spec {b : FCharBuffer} {l : List UInt8} (h : b.Holds l) :
    ∃ b', b.clear = some b' ∧ b'.Holds [] := by
  have hbacked : { b with cursor := 0, readCursor := 0 : FCharBuffer }.Backed [] :=
    (h.backed.shorter List.nil_prefix).of_eq rfl rfl
  unfold clear
  dsimp only
  split
  · rename_i hsome
    obtain ⟨block, hblock⟩ := Option.isSome_iff_exists.mp hsome
    have hsize : 0 < b.bufSize := by
      have hb := h.backed
      unfold Backed at hb
      rw [hblock] at hb
      exact hb.2.1
    obtain ⟨b', hwrite, hbacked', -, hcursor⟩ :=
      @write_zero_spec _ _ [some 0] hbacked hsize
    exact ⟨b', hwrite, hcursor, hbacked'.shorter List.nil_prefix⟩
  · exact ⟨_, rfl, rfl, hbacked⟩

theorem cStr_spec {b : FCharBuffer} {l : List UInt8} (h : b.Holds l) (hsize : l.length < 2 ^ 30) :
    ∃ b', b.cStr = some (b', (l ++ [0]).map some) ∧ b'.Holds l := by
  have hcursor := h.cursor
  obtain ⟨b', hreserve, hholds, hcapacity⟩ :=
    @Holds.reserveWhen_spec b l h (b.bufSize ≤ b.cursor) (b.cursor + 1) (l.length + 1)
      (fun _ => by omega)
      (fun hfits => by
        have := of_decide_eq_false hfits
        omega)
  obtain ⟨b'', hwrite, hcursor', hbacked⟩ := @extend_spec b' l [0] hholds hcapacity
  have hread := read_spec hbacked
  rw [List.length_map, List.length_append, List.length_singleton, ← hholds.cursor,
    ← hcursor'] at hread
  rw [List.map_singleton] at hwrite
  refine ⟨b'', ?_, hcursor'.trans hholds.cursor, hbacked.shorter ?_⟩
  · simp only [cStr, hreserve, Option.bind_eq_bind, Option.bind_some, hwrite, hread]
  · rw [List.map_append]
    exact List.prefix_append _ _

end FCharBuffer

/-! ## Runs -/

/-- The byte lists that the buffers stand for. -/
abbrev Lists := Nat → List UInt8

/-- The operation on lists. -/
def Op.onLists (l : Lists) : Op → Lists
  | .sized i size => Function.update l i (List.replicate size 0)
  | .append i bytes => Function.update l i (l i ++ bytes)
  | .assign i bytes => Function.update l i bytes
  | .reserveAssign i bytes => Function.update l i bytes
  | .put i c => Function.update l i (l i ++ [c])
  | .clear i => Function.update l i []
  | .reserve _ _ => l
  | .copy i j => Function.update l i (l j)
  | .move i j => Function.update (Function.update l i (l j)) j (l i)
  | .cStr _ => l

/-- A copy assignment is from another buffer. -/
def Op.fromOther : Op → Bool
  | .copy i j => i ≠ j
  | _ => true

/-- A copy assignment is from another buffer, and the list that the operation leaves in its buffer
is shorter than `2 ^ 30`. -/
def Op.Bounded (l : Lists) (op : Op) : Prop :=
  op.fromOther ∧ (op.onLists l op.target).length < 2 ^ 30

instance (l : Lists) (op : Op) : Decidable (op.Bounded l) :=
  inferInstanceAs (Decidable (_ ∧ _))

/-- All operations of the sequence are bounded on the lists they find. -/
def Bounded (ops : List Op) : Prop :=
  Guarded (fun l op => some (op.onLists l)) Op.Bounded (fun _ => []) ops

instance (ops : List Op) : Decidable (Bounded ops) :=
  inferInstanceAs (Decidable (Guarded _ _ _ _))

/-- Every buffer holds its list. -/
def AllHold (s : Buffers) (l : Lists) : Prop := ∀ i, (s i).Holds (l i)

/-- Replacing one buffer and its list. -/
theorem AllHold.update {s : Buffers} {l : Lists} (h : AllHold s l) {i : Nat} {b : FCharBuffer}
    {bytes : List UInt8} (hb : b.Holds bytes) :
    AllHold (Function.update s i b) (Function.update l i bytes) := by
  intro k
  by_cases hk : k = i
  · rw [hk, Function.update_self, Function.update_self]
    exact hb
  · rw [Function.update_of_ne hk, Function.update_of_ne hk]
    exact h k

/-- An operation on one buffer that is defined and leaves it with `bytes`. -/
theorem AllHold.put {s : Buffers} {l : Lists} (h : AllHold s l) (i : Nat)
    {result : Option FCharBuffer} {bytes : List UInt8}
    (hresult : ∃ b, result = some b ∧ b.Holds bytes) :
    ∃ t, s.put i result = some t ∧ AllHold t (Function.update l i bytes) := by
  obtain ⟨b, rfl, hb⟩ := hresult
  exact ⟨_, rfl, h.update hb⟩

/-- One operation is defined and keeps the relation to the lists. -/
theorem AllHold.step {s : Buffers} {l : Lists} (h : AllHold s l) {op : Op}
    (hsizes : ∀ i, (l i).length < 2 ^ 30) (hop : op.Bounded l) :
    ∃ t, Buffer.step s op = some t ∧ AllHold t (op.onLists l) := by
  obtain ⟨hother, hsize⟩ := hop
  have hself : ∀ i, Function.update l i (l i) = l := fun i => Function.update_eq_self i l
  cases op with
  | sized i size =>
      simp only [Op.onLists, Op.target, Function.update_self, List.length_replicate] at hsize
      exact h.put i (FCharBuffer.sized_spec hsize)
  | append i bytes =>
      simp only [Op.onLists, Op.target, Function.update_self] at hsize
      exact h.put i (FCharBuffer.append_spec (h i) hsize)
  | assign i bytes =>
      simp only [Op.onLists, Op.target, Function.update_self] at hsize
      exact h.put i (FCharBuffer.assign_spec (h i) hsize)
  | reserveAssign i bytes =>
      simp only [Op.onLists, Op.target, Function.update_self] at hsize
      exact h.put i (FCharBuffer.reserveAssign_spec (h i) hsize)
  | put i c =>
      simp only [Op.onLists, Op.target, Function.update_self] at hsize
      exact h.put i (FCharBuffer.put_spec (h i) c hsize)
  | clear i => exact h.put i (FCharBuffer.clear_spec (h i))
  | reserve i size =>
      obtain ⟨b, hreserve, hb, -⟩ := (h i).reserve_spec size
      have hput := h.put i ⟨b, hreserve, hb⟩
      rwa [hself] at hput
  | copy i j =>
      have hne : i ≠ j := of_decide_eq_true hother
      rw [Buffer.step, if_neg hne]
      exact h.put i (FCharBuffer.copy_spec (h i) (h j) (hsizes j))
  | move i j => exact ⟨_, rfl, (h.update (h j)).update (h i)⟩
  | cStr i =>
      obtain ⟨b, hcStr, hb⟩ := FCharBuffer.cStr_spec (h i) (hsizes i)
      have hput := @AllHold.put s l h i ((s i).cStr.map Prod.fst) (l i) ⟨b, by rw [hcStr]; rfl, hb⟩
      rwa [hself] at hput

/-- A bounded operation leaves every list below the bound. -/
theorem onLists_length_lt {l : Lists} {op : Op} (hsizes : ∀ i, (l i).length < 2 ^ 30)
    (hop : op.Bounded l) (k : Nat) : (op.onLists l k).length < 2 ^ 30 := by
  obtain ⟨-, hsize⟩ := hop
  have hupdate : ∀ (i : Nat) (bytes : List UInt8), bytes.length < 2 ^ 30 →
      (Function.update l i bytes k).length < 2 ^ 30 := by
    intro i bytes hbytes
    by_cases hk : k = i
    · rwa [hk, Function.update_self]
    · rw [Function.update_of_ne hk]
      exact hsizes k
  cases op with
  | move i j =>
      show (Function.update (Function.update l i (l j)) j (l i) k).length < 2 ^ 30
      by_cases hk : k = j
      · rw [hk, Function.update_self]
        exact hsizes i
      · rw [Function.update_of_ne hk]
        exact hupdate i (l j) (hsizes j)
  | reserve i size => exact hsizes k
  | cStr i => exact hsizes k
  | copy i j => exact hupdate i (l j) (hsizes j)
  | clear i => exact hupdate i [] (by decide)
  | sized i size | append i bytes | assign i bytes | reserveAssign i bytes | put i c =>
      simp only [Op.onLists, Op.target, Function.update_self] at hsize
      exact hupdate i _ hsize

/-- A bounded sequence of operations is defined and keeps the relation to the lists. -/
theorem AllHold.run {ops : List Op} {s : Buffers} {l : Lists} (h : AllHold s l)
    (hsizes : ∀ i, (l i).length < 2 ^ 30)
    (hops : Guarded (fun l op => some (op.onLists l)) Op.Bounded l ops) :
    ∃ t, exec Buffer.step s ops = some t ∧ AllHold t (ops.foldl Op.onLists l) ∧
      ∀ i, (ops.foldl Op.onLists l i).length < 2 ^ 30 := by
  induction ops generalizing s l with
  | nil => exact ⟨s, rfl, h, hsizes⟩
  | cons op ops ih =>
      obtain ⟨t, hstep, ht⟩ := h.step hsizes hops.1
      obtain ⟨u, hrun, hu⟩ := ih ht (onLists_length_lt hsizes hops.1) (hops.2 _ rfl)
      exact ⟨u, exec_cons_eq_some.mpr ⟨t, hstep, hrun⟩, hu⟩

/-- Every sequence of operations whose lists stay below `2 ^ 30` bytes is defined, so that all its
writes are below the capacity; afterwards every buffer's `View` is the list that the same
operations give on lists, and `CStr` returns the list followed by a NUL. -/
theorem char_buffer_refinement (ops : List Op) (hops : Bounded ops) :
    ∃ t, exec step init ops = some t ∧ ∀ i,
      (t i).view = some ((ops.foldl Op.onLists (fun _ => []) i).map some) ∧
      ∃ b, (t i).cStr = some (b, (ops.foldl Op.onLists (fun _ => []) i ++ [0]).map some) := by
  obtain ⟨t, hrun, hholds, hsizes⟩ :=
    AllHold.run (fun _ => FCharBuffer.new_holds) (fun _ => by decide) hops
  refine ⟨t, hrun, fun i => ⟨FCharBuffer.view_spec (hholds i), ?_⟩⟩
  obtain ⟨b, hcStr, -⟩ := FCharBuffer.cStr_spec (hholds i) (hsizes i)
  exact ⟨b, hcStr⟩

/-- Growth at exact capacity, a copy, a move and a terminator that needs an allocation. -/
theorem char_buffer_refinement_mixed :
    let ops := [.cStr 0, .put 0 65, .put 0 66, .append 1 [67, 68], .copy 2 0, .move 1 2,
      .reserveAssign 0 [69], .clear 2, .cStr 1]
    Bounded ops ∧ ∃ t, exec step init ops = some t ∧ ∀ i,
      (t i).view = some ((ops.foldl Op.onLists (fun _ => []) i).map some) ∧
      ∃ b, (t i).cStr = some (b, (ops.foldl Op.onLists (fun _ => []) i ++ [0]).map some) :=
  have hbounded : Bounded [.cStr 0, .put 0 65, .put 0 66, .append 1 [67, 68], .copy 2 0,
      .move 1 2, .reserveAssign 0 [69], .clear 2, .cStr 1] := by decide
  ⟨hbounded, char_buffer_refinement _ hbounded⟩

end Utilpp.Buffer
