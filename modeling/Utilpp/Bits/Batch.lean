import Utilpp.Bits.Refinement

/-!
# Batches near the top of `size_t`

`SetBatch` and `ClearBatch` with their indices as `size_t` and with the bounds of `data_`. Where no
sum wraps they are the batches on natural numbers (`batch_of_fits`). `batch_saturation` says for
which arguments a batch covers the positions from `start` on, so that a large `count` means the
rest of the vector: where `start + count` wraps the range is empty, and where `start + 8` wraps the
loop over whole bytes writes behind the array.
-/

namespace Utilpp.Bits.TBitVector

open Lib

variable {kBits : Nat}

/-- `kWords` as the compiler computes it. -/
def sizeWords (kBits : Nat) : Nat := (kBits + 7) % 2 ^ 64 / 8

theorem sizeWords_eq (h : kBits + 7 < 2 ^ 64) : sizeWords kBits = kWords kBits := by
  unfold sizeWords
  rw [Nat.mod_eq_of_lt h]
  rfl

namespace SizeT

theorem toNat_add_one {idx stop : UInt64} (h : idx < stop) : (idx + 1).toNat = idx.toNat + 1 := by
  have hlt := UInt64.lt_iff_toNat_lt.mp h
  have hstop := stop.toNat_lt
  rw [UInt64.toNat_add, UInt64.toNat_one, Nat.mod_eq_of_lt (by omega)]

theorem toNat_add_eight {idx : UInt64} (h : idx.toNat + 8 < 2 ^ 64) :
    (idx + 8).toNat = idx.toNat + 8 := by
  rw [UInt64.toNat_add, show (8 : UInt64).toNat = 8 from rfl, Nat.mod_eq_of_lt h]

/-- A byte of the array is not at the top of `size_t`. -/
theorem add_eight_lt {idx : UInt64} (h : idx.toNat / 8 < sizeWords kBits) :
    idx.toNat + 8 < 2 ^ 64 := by
  unfold sizeWords at h
  omega

/-- The first loop of `SetBatch` and `ClearBatch`. -/
def batchHead (one : TBitVector kBits → Nat → TBitVector kBits) (stop : UInt64)
    (v : TBitVector kBits) (idx : UInt64) : Option (TBitVector kBits × UInt64) :=
  if idx < stop ∧ idx % 8 ≠ 0 then
    if idx.toNat / 8 < sizeWords kBits then batchHead one stop (one v idx.toNat) (idx + 1)
    else Option.none
  else some (v, idx)
termination_by stop.toNat - idx.toNat
decreasing_by
  rename_i hloop _
  have hlt := UInt64.lt_iff_toNat_lt.mp hloop.1
  rw [toNat_add_one hloop.1]
  omega

/-- The second loop. -/
def batchBytes (byte : BitVec 8) (stop : UInt64) (v : TBitVector kBits) (idx : UInt64) :
    Option (TBitVector kBits × UInt64) :=
  if idx + 8 ≤ stop then
    if idx.toNat / 8 < sizeWords kBits then
      batchBytes byte stop (v.update (idx.toNat / 8) fun _ => byte) (idx + 8)
    else Option.none
  else some (v, idx)
termination_by 2 ^ 64 - idx.toNat
decreasing_by
  rename_i hinside
  have hlt := add_eight_lt hinside
  rw [toNat_add_eight hlt]
  omega

/-- The third loop. -/
def batchTail (one : TBitVector kBits → Nat → TBitVector kBits) (stop : UInt64)
    (v : TBitVector kBits) (idx : UInt64) : Option (TBitVector kBits) :=
  if idx < stop then
    if idx.toNat / 8 < sizeWords kBits then batchTail one stop (one v idx.toNat) (idx + 1)
    else Option.none
  else some v
termination_by stop.toNat - idx.toNat
decreasing_by
  rename_i hloop _
  have hlt := UInt64.lt_iff_toNat_lt.mp hloop
  rw [toNat_add_one hloop]
  omega

/-- The body of `SetBatch` and `ClearBatch`. -/
def batch (one : TBitVector kBits → Nat → TBitVector kBits) (byte : BitVec 8)
    (v : TBitVector kBits) (start count : UInt64) : Option (TBitVector kBits) := do
  let stop := min (start + count) (UInt64.ofNat kBits)
  let head ← batchHead one stop v start
  let bytes ← batchBytes byte stop head.1 head.2
  batchTail one stop bytes.1 bytes.2

/-- `SetBatch`. -/
def setBatch : TBitVector kBits → UInt64 → UInt64 → Option (TBitVector kBits) := batch set 0xff

/-- `ClearBatch`. -/
def clearBatch : TBitVector kBits → UInt64 → UInt64 → Option (TBitVector kBits) := batch reset 0

/-! ## Where nothing wraps -/

theorem mod_eight_ne_zero (idx : UInt64) : idx % 8 ≠ 0 ↔ idx.toNat % 8 ≠ 0 := by
  rw [Ne, ← UInt64.toNat_inj, UInt64.toNat_mod]
  rfl

variable {b : Bool} {one : TBitVector kBits → Nat → TBitVector kBits} {byte : BitVec 8}
  {stop : UInt64}

theorem batchHead_eq (hkBits : kBits + 7 < 2 ^ 64) (hstop : stop.toNat ≤ kBits)
    (v : TBitVector kBits) (idx : UInt64) :
    ∃ next, batchHead one stop v idx =
        some ((TBitVector.batchHead one stop.toNat v idx.toNat).1, next) ∧
      next.toNat = (TBitVector.batchHead one stop.toNat v idx.toNat).2 := by
  fun_induction batchHead one stop v idx with
  | case1 v idx hloop hinside ih =>
      have hcond : idx.toNat < stop.toNat ∧ idx.toNat % 8 ≠ 0 :=
        ⟨UInt64.lt_iff_toNat_lt.mp hloop.1, (mod_eight_ne_zero idx).mp hloop.2⟩
      rw [toNat_add_one hloop.1] at ih
      rw [TBitVector.batchHead, if_pos hcond]
      exact ih
  | case2 v idx hloop hinside =>
      have hlt := UInt64.lt_iff_toNat_lt.mp hloop.1
      rw [sizeWords_eq hkBits] at hinside
      exact absurd (byte_lt (by omega)) hinside
  | case3 v idx hdone =>
      have hcond : ¬ (idx.toNat < stop.toNat ∧ idx.toNat % 8 ≠ 0) := fun hloop =>
        hdone ⟨UInt64.lt_iff_toNat_lt.mpr hloop.1, (mod_eight_ne_zero idx).mpr hloop.2⟩
      rw [TBitVector.batchHead, if_neg hcond]
      exact ⟨idx, rfl, rfl⟩

theorem batchBytes_eq (hkBits : kBits + 7 < 2 ^ 64) (hstop : stop.toNat ≤ kBits)
    (hend : stop.toNat + 8 < 2 ^ 64) (v : TBitVector kBits) (idx : UInt64)
    (hidx : idx.toNat + 8 < 2 ^ 64) :
    ∃ next, batchBytes byte stop v idx =
        some ((TBitVector.batchBytes byte stop.toNat v idx.toNat).1, next) ∧
      next.toNat = (TBitVector.batchBytes byte stop.toNat v idx.toNat).2 := by
  fun_induction batchBytes byte stop v idx with
  | case1 v idx hloop hinside ih =>
      have hadd := toNat_add_eight hidx
      have hcond : idx.toNat + 8 ≤ stop.toNat := hadd ▸ UInt64.le_iff_toNat_le.mp hloop
      rw [hadd] at ih
      rw [TBitVector.batchBytes, if_pos hcond]
      exact ih (by omega)
  | case2 v idx hloop hinside =>
      have hcond : idx.toNat + 8 ≤ stop.toNat :=
        toNat_add_eight hidx ▸ UInt64.le_iff_toNat_le.mp hloop
      rw [sizeWords_eq hkBits] at hinside
      exact absurd (byte_lt (by omega)) hinside
  | case3 v idx hdone =>
      have hcond : ¬ idx.toNat + 8 ≤ stop.toNat := fun hloop =>
        hdone (UInt64.le_iff_toNat_le.mpr (by rw [toNat_add_eight hidx]; exact hloop))
      rw [TBitVector.batchBytes, if_neg hcond]
      exact ⟨idx, rfl, rfl⟩

theorem batchTail_eq (hkBits : kBits + 7 < 2 ^ 64) (hstop : stop.toNat ≤ kBits)
    (v : TBitVector kBits) (idx : UInt64) :
    batchTail one stop v idx = some (TBitVector.batchTail one stop.toNat v idx.toNat) := by
  fun_induction batchTail one stop v idx with
  | case1 v idx hloop hinside ih =>
      rw [ih, toNat_add_one hloop]
      conv => rhs; rw [TBitVector.batchTail, if_pos (UInt64.lt_iff_toNat_lt.mp hloop)]
  | case2 v idx hloop hinside =>
      have hlt := UInt64.lt_iff_toNat_lt.mp hloop
      rw [sizeWords_eq hkBits] at hinside
      exact absurd (byte_lt (by omega)) hinside
  | case3 v idx hdone =>
      rw [TBitVector.batchTail, if_neg fun hloop => hdone (UInt64.lt_iff_toNat_lt.mpr hloop)]

/-- The end of the range. -/
theorem toNat_stop (hkBits : kBits + 7 < 2 ^ 64) (start count : UInt64) :
    (min (start + count) (UInt64.ofNat kBits)).toNat = min (start + count).toNat kBits := by
  have hsize : (UInt64.ofNat kBits).toNat = kBits :=
    UInt64.toNat_ofNat_of_lt' (show kBits < 2 ^ 64 by omega)
  rw [UInt64.toNat_min, hsize]

/-- Without a wrap, the batch is that on natural numbers. -/
theorem batch_of_fits (hkBits : kBits + 7 < 2 ^ 64) (hone : Writes b one) (v : TBitVector kBits)
    {start count : UInt64} (hstart : start.toNat + 8 < 2 ^ 64)
    (hsum : start.toNat + count.toNat < 2 ^ 64)
    (hend : min (start.toNat + count.toNat) kBits + 8 < 2 ^ 64) :
    batch one byte v start count =
      some (TBitVector.batch one byte v start.toNat count.toNat) := by
  have hstop := toNat_stop hkBits start count
  rw [UInt64.toNat_add, Nat.mod_eq_of_lt hsum] at hstop
  have hle : min (start.toNat + count.toNat) kBits ≤ kBits := Nat.min_le_right _ _
  obtain ⟨next, hhead, hnext⟩ := @batchHead_eq kBits one _ hkBits (hstop ▸ hle) v start
  rw [hstop] at hhead hnext
  have hbound := (bitAt_batchHead hone hle v start.toNat).2.2.1
  obtain ⟨last, hbytes, hlast⟩ := @batchBytes_eq kBits byte _ hkBits (hstop ▸ hle)
    (by rw [hstop]; exact hend)
    (TBitVector.batchHead one (min (start.toNat + count.toNat) kBits) v start.toNat).1 next
    (by omega)
  rw [hstop, hnext] at hbytes hlast
  have htail := @batchTail_eq kBits one _ hkBits (hstop ▸ hle)
    (TBitVector.batchBytes byte (min (start.toNat + count.toNat) kBits)
      (TBitVector.batchHead one (min (start.toNat + count.toNat) kBits) v start.toNat).1
      (TBitVector.batchHead one (min (start.toNat + count.toNat) kBits) v start.toNat).2).1 last
  rw [hstop, hlast] at htail
  unfold batch
  simp only [hhead, hbytes, Option.bind_eq_bind, Option.bind_some]
  exact htail

/-! ## Where a sum wraps -/

/-- An index at the end of the range leaves the first loop. -/
theorem batchHead_of_le (v : TBitVector kBits) {idx : UInt64} (h : stop ≤ idx) :
    batchHead one stop v idx = some (v, idx) := by
  rw [batchHead, if_neg fun hloop => UInt64.not_lt.mpr h hloop.1]

/-- An empty range whose end is not reached by a wrap. -/
theorem batch_of_le (v : TBitVector kBits) {start count : UInt64}
    (hle : min (start + count) (UInt64.ofNat kBits) ≤ start)
    (hwrap : ¬ start + 8 ≤ min (start + count) (UInt64.ofNat kBits)) :
    batch one byte v start count = some v := by
  unfold batch
  simp only [batchHead_of_le v hle, Option.bind_eq_bind, Option.bind_some]
  rw [batchBytes, if_neg hwrap]
  simp only [Option.bind_some]
  rw [batchTail, if_neg (UInt64.not_lt.mpr hle)]

/-- An index that wraps below the end of the range is behind the array. -/
theorem batch_of_wrap (v : TBitVector kBits) {start count : UInt64}
    (hle : min (start + count) (UInt64.ofNat kBits) ≤ start)
    (hwrap : start + 8 ≤ min (start + count) (UInt64.ofNat kBits)) :
    batch one byte v start count = Option.none := by
  have hbehind : ¬ start.toNat / 8 < sizeWords kBits := by
    intro hinside
    have hadd := toNat_add_eight (add_eight_lt hinside)
    have hbelow := UInt64.le_iff_toNat_le.mp hwrap
    have habove := UInt64.le_iff_toNat_le.mp hle
    omega
  unfold batch
  simp only [batchHead_of_le v hle, Option.bind_eq_bind, Option.bind_some]
  rw [batchBytes, if_pos hwrap, if_neg hbehind]
  rfl

/-- In the largest vector the loop over whole bytes does not end at the last one. -/
theorem batchBytes_of_largest (hkBits : kBits + 8 = 2 ^ 64) (hstop : stop.toNat = kBits)
    (v : TBitVector kBits) (idx : UInt64) (haligned : idx.toNat % 8 = 0)
    (hle : idx.toNat ≤ kBits) : batchBytes byte stop v idx = Option.none := by
  fun_induction batchBytes byte stop v idx with
  | case1 v idx hloop hinside ih =>
      have hadd := toNat_add_eight (add_eight_lt hinside)
      have hnext := UInt64.le_iff_toNat_le.mp hloop
      exact ih (by omega) (by omega)
  | case2 => rfl
  | case3 v idx hdone =>
      have hsum : (idx + 8).toNat = (idx.toNat + 8) % 2 ^ 64 := UInt64.toNat_add idx 8
      refine absurd (UInt64.le_iff_toNat_le.mpr ?_) hdone
      omega

theorem batch_of_largest (hkBits : kBits + 8 = 2 ^ 64) (hone : Writes b one)
    (v : TBitVector kBits) {start count : UInt64} (hstart : start.toNat < kBits)
    (hstop : (min (start + count) (UInt64.ofNat kBits)).toNat = kBits) :
    batch one byte v start count = Option.none := by
  obtain ⟨next, hhead, hnext⟩ := @batchHead_eq kBits one _ (by omega) (Nat.le_of_eq hstop) v start
  obtain ⟨-, haligned, hbound, -⟩ := bitAt_batchHead hone (Nat.le_of_eq hstop) v start.toNat
  rw [← hnext] at haligned hbound
  have hbytes := @batchBytes_of_largest kBits byte _ hkBits hstop
    (TBitVector.batchHead one (min (start + count) (UInt64.ofNat kBits)).toNat v start.toNat).1 next
    (by omega) (by omega)
  unfold batch
  simp only [hhead, hbytes, Option.bind_eq_bind, Option.bind_some, Option.bind_none]

end SizeT

/-! ## The rest of the vector -/

/-- The batch gave `b` to the positions from `start` on, at most `count` of them, and changed no
others. -/
def Saturates (b : Bool) (v : TBitVector kBits) (start count : UInt64)
    (result : Option (TBitVector kBits)) : Prop :=
  ∃ v', result = some v' ∧ ∀ p, v'.test p =
    if start.toNat ≤ p ∧ p < kBits ∧ p - start.toNat < count.toNat then b else v.test p

/-- The arguments that a batch copes with. From a position of the vector on, the sum must not wrap,
or there is nothing to change behind it; behind the vector, `start + 8` must not wrap to a number
that is not above the end of the range. In the vector of `2 ^ 64 - 8` bits, which fills its array
to the last byte that `size_t` counts, no range may reach the end. -/
def Fits (b : Bool) (v : TBitVector kBits) (start count : UInt64) : Prop :=
  if start.toNat < kBits then
    if start.toNat + count.toNat < 2 ^ 64 then
      kBits + 8 < 2 ^ 64 ∨ start.toNat + count.toNat < kBits
    else ∀ p, start.toNat ≤ p → p < kBits → v.test p = b
  else start.toNat + 8 < 2 ^ 64 ∨
    min ((start.toNat + count.toNat) % 2 ^ 64) kBits < start.toNat + 8 - 2 ^ 64

theorem not_saturates_none {b : Bool} {v : TBitVector kBits} {start count : UInt64} :
    ¬ Saturates b v start count Option.none := by
  rintro ⟨v', hv', -⟩
  cases hv'

/-- A vector that is left as it is. -/
theorem saturates_self_iff {b : Bool} {v : TBitVector kBits} {start count : UInt64} :
    Saturates b v start count (some v) ↔
      ∀ p, start.toNat ≤ p → p < kBits → p - start.toNat < count.toNat → v.test p = b := by
  constructor
  · rintro ⟨v', hv', hbits⟩ p hp hlt hcount
    cases hv'
    rw [hbits p, if_pos ⟨hp, hlt, hcount⟩]
  · intro hall
    refine ⟨v, rfl, fun p => ?_⟩
    split
    · rename_i hp
      exact hall p hp.1 hp.2.1 hp.2.2
    · rfl

variable {b : Bool} {one : TBitVector kBits → Nat → TBitVector kBits} {byte : BitVec 8}
  {start count : UInt64}

/-- From a position of the vector on, without a wrap. -/
theorem saturates_of_sum (hkBits : kBits + 7 < 2 ^ 64) (hone : Writes b one)
    (hbyte : ∀ j < 8, byte.getLsbD j = b) (v : TBitVector kBits) (hstart : start.toNat < kBits)
    (hsum : start.toNat + count.toNat < 2 ^ 64) :
    Saturates b v start count (SizeT.batch one byte v start count) ↔
      kBits + 8 < 2 ^ 64 ∨ start.toNat + count.toNat < kBits := by
  have hstop := SizeT.toNat_stop hkBits start count
  rw [UInt64.toNat_add, Nat.mod_eq_of_lt hsum] at hstop
  by_cases hend : kBits + 8 < 2 ^ 64 ∨ start.toNat + count.toNat < kBits
  · rw [SizeT.batch_of_fits hkBits hone v (by omega) hsum (by omega)]
    refine ⟨fun _ => hend, fun _ => ⟨_, rfl, fun p => ?_⟩⟩
    rw [test_eq, test_eq, bitAt_batch hone hbyte]
    have hsame : start.toNat ≤ p ∧ p < min (start.toNat + count.toNat) kBits ↔
        start.toNat ≤ p ∧ p < kBits ∧ p - start.toNat < count.toNat := by omega
    simp only [hsame]
  · rw [SizeT.batch_of_largest (by omega) hone v hstart (by omega)]
    exact iff_of_false not_saturates_none hend

/-- From a position of the vector on, the range of a sum that wraps is empty. -/
theorem saturates_of_wrap (hkBits : kBits + 7 < 2 ^ 64) (v : TBitVector kBits)
    (hstart : start.toNat < kBits) (hsum : ¬ start.toNat + count.toNat < 2 ^ 64) :
    Saturates b v start count (SizeT.batch one byte v start count) ↔
      ∀ p, start.toNat ≤ p → p < kBits → v.test p = b := by
  have hcount := count.toNat_lt
  have hstop := SizeT.toNat_stop hkBits start count
  rw [UInt64.toNat_add] at hstop
  have hadd : (start + 8).toNat = start.toNat + 8 := SizeT.toNat_add_eight (by omega)
  have hle : min (start + count) (UInt64.ofNat kBits) ≤ start :=
    UInt64.le_iff_toNat_le.mpr (by omega)
  have hwrap : ¬ start + 8 ≤ min (start + count) (UInt64.ofNat kBits) := fun h => by
    have hbelow := UInt64.le_iff_toNat_le.mp h
    omega
  rw [SizeT.batch_of_le v hle hwrap, saturates_self_iff]
  refine forall_congr' fun p => forall_congr' fun hp => forall_congr' fun hlt => ?_
  exact forall_prop_of_true (by omega)

/-- From a position behind the vector on nothing is to be done. -/
theorem saturates_of_behind (hkBits : kBits + 7 < 2 ^ 64) (v : TBitVector kBits)
    (hstart : ¬ start.toNat < kBits) :
    Saturates b v start count (SizeT.batch one byte v start count) ↔
      start.toNat + 8 < 2 ^ 64 ∨
        min ((start.toNat + count.toNat) % 2 ^ 64) kBits < start.toNat + 8 - 2 ^ 64 := by
  have hstop := SizeT.toNat_stop hkBits start count
  rw [UInt64.toNat_add] at hstop
  have hadd : (start + 8).toNat = (start.toNat + 8) % 2 ^ 64 := UInt64.toNat_add start 8
  have hlt := start.toNat_lt
  have hle : min (start + count) (UInt64.ofNat kBits) ≤ start :=
    UInt64.le_iff_toNat_le.mpr (by omega)
  have hwrap : start + 8 ≤ min (start + count) (UInt64.ofNat kBits) ↔
      ¬ (start.toNat + 8 < 2 ^ 64 ∨
        min ((start.toNat + count.toNat) % 2 ^ 64) kBits < start.toNat + 8 - 2 ^ 64) := by
    rw [UInt64.le_iff_toNat_le, hadd, hstop]
    omega
  by_cases hfits : start + 8 ≤ min (start + count) (UInt64.ofNat kBits)
  · rw [SizeT.batch_of_wrap v hle hfits]
    exact iff_of_false not_saturates_none (hwrap.mp hfits)
  · rw [SizeT.batch_of_le v hle hfits, saturates_self_iff]
    refine iff_of_true (fun p hp hinside => absurd (Nat.lt_of_le_of_lt hp hinside) hstart) ?_
    exact not_not.mp (mt hwrap.mpr hfits)

theorem saturates_batch_iff (hkBits : kBits + 7 < 2 ^ 64) (hone : Writes b one)
    (hbyte : ∀ j < 8, byte.getLsbD j = b) (v : TBitVector kBits) (start count : UInt64) :
    Saturates b v start count (SizeT.batch one byte v start count) ↔ Fits b v start count := by
  unfold Fits
  split
  · rename_i hstart
    split
    · rename_i hsum
      exact saturates_of_sum hkBits hone hbyte v hstart hsum
    · rename_i hsum
      exact saturates_of_wrap hkBits v hstart hsum
  · rename_i hstart
    exact saturates_of_behind hkBits v hstart

/-- `SetBatch` and `ClearBatch` cover the positions from `start` on exactly for the arguments that
they cope with. -/
theorem batch_saturation (hkBits : kBits + 7 < 2 ^ 64) (v : TBitVector kBits)
    (start count : UInt64) :
    (Saturates true v start count (SizeT.setBatch v start count) ↔ Fits true v start count) ∧
      (Saturates false v start count (SizeT.clearBatch v start count) ↔
        Fits false v start count) :=
  ⟨saturates_batch_iff hkBits writes_set (by decide) v start count,
    saturates_batch_iff hkBits writes_reset (by decide) v start count⟩

/-- Three bits of a byte from the second on. -/
theorem batch_saturation_three :
    Saturates true (.new 8) 2 3 (SizeT.setBatch (.new 8) 2 3) := by
  refine (batch_saturation (by omega) (.new 8) 2 3).1.mpr ?_
  unfold Fits
  rw [if_pos (by decide), if_pos (by decide)]
  exact .inl (by omega)

/-- The largest count from the second position on changes nothing. -/
theorem not_batch_saturation :
    ¬ ∀ (v : TBitVector 8) (start count : UInt64),
      Saturates true v start count (SizeT.setBatch v start count) := by
  intro h
  have hfits := (saturates_batch_iff (by omega) writes_set (by decide) (.new 8) 1
    18446744073709551615).mp (h _ _ _)
  unfold Fits at hfits
  rw [if_pos (by decide), if_neg (by decide)] at hfits
  have hset := hfits 1 (by decide) (by omega)
  revert hset
  decide

end Utilpp.Bits.TBitVector
