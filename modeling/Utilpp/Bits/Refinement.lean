import Utilpp.Bits.BitVector
import Mathlib.Data.Finset.Image
import Mathlib.Data.Finset.Card
import Mathlib.Order.Interval.Finset.Nat

/-!
# Bit vectors are sets of positions

`Refines` relates a bit vector to the set of its positions: a bit of the byte array is set when
its position is in the set, and the set has only positions below `kBits`, so that the bits behind
them are zero. Every operation keeps the relation to the operation on sets
(`Construction.refines`), and for related vectors and sets the queries agree
(`bit_vector_refinement`).
-/

namespace Utilpp.Bits

open Lib

namespace TBitVector

variable {kBits : Nat}

/-! ## Bits of the array -/

theorem byte_lt {q : Nat} (h : q < kBits) : q / 8 < kWords kBits := by
  unfold kWords
  omega

/-- The bytes behind the array have no bits. -/
theorem bitAt_behind (v : TBitVector kBits) {q : Nat} (h : kWords kBits ≤ q / 8) :
    bitAt v.data q = false :=
  bitAt_of_length_le (by rw [v.length_data]; exact h)

/-- `Test` reads a bit of the array. -/
theorem test_eq (v : TBitVector kBits) (pos : Nat) : v.test pos = bitAt v.data pos := by
  have hone : ∀ x : BitVec 8, (decide (x &&& 1 ≠ 0)) = x.getLsbD 0 := by decide
  unfold test
  rw [hone, BitVec.getLsbD_ushiftRight, Nat.add_zero]
  rfl

theorem bitAt_update (v : TBitVector kBits) (i : Nat) (f : BitVec 8 → BitVec 8) (q : Nat) :
    bitAt (v.update i f).data q =
      if q / 8 = i ∧ i < kWords kBits then (f (v.byte i)).getLsbD (q % 8) else bitAt v.data q := by
  have hmodify := bitAt_modify v.data i f q
  rw [v.length_data] at hmodify
  exact hmodify

/-- The bit that `1U << k` sets. -/
theorem getLsbD_one_shiftLeft {w : Nat} (k j : Nat) (hj : j < w) :
    (1#w <<< k).getLsbD j = decide (j = k) := by
  have htwoPow := BitVec.getLsbD_twoPow (w := w) k j
  rw [BitVec.twoPow] at htwoPow
  rw [htwoPow]
  by_cases hk : k = j
  · subst hk
    simp [hj]
  · simp [hk, Ne.symm hk]

/-- The test of one bit with a mask. -/
theorem and_one_shiftLeft_ne_zero {w : Nat} (x : BitVec w) (i : Nat) :
    x &&& 1#w <<< i ≠ 0 ↔ x.getLsbD i = true := by
  constructor
  · intro hne
    by_contra hbit
    refine hne (BitVec.eq_of_getLsbD_eq fun j hj => ?_)
    rw [BitVec.getLsbD_and, getLsbD_one_shiftLeft _ _ hj]
    by_cases hji : j = i
    · subst hji
      rw [Bool.not_eq_true] at hbit
      simp [hbit]
    · simp [hji]
  · intro hbit hzero
    have hi := BitVec.lt_of_getLsbD hbit
    have hand : (x &&& 1#w <<< i).getLsbD i = true := by
      rw [BitVec.getLsbD_and, getLsbD_one_shiftLeft _ _ hi, hbit]
      simp
    rw [hzero] at hand
    simp at hand

/-- Two positions in the same byte are equal when their bits are. -/
theorem eq_iff_mod {p q : Nat} (h : q / 8 = p / 8) : q % 8 = p % 8 ↔ q = p := by omega

/-- A change of the one byte that holds a position. -/
theorem bitAt_update_pos (v : TBitVector kBits) {p : Nat} (hp : p < kBits)
    (f : BitVec 8 → BitVec 8) (b : Bool → Bool)
    (hf : ∀ x : BitVec 8, ∀ j < 8, (f x).getLsbD j =
      if j = p % 8 then b (x.getLsbD j) else x.getLsbD j) (q : Nat) :
    bitAt (v.update (p / 8) f).data q =
      if q = p then b (bitAt v.data q) else bitAt v.data q := by
  rw [bitAt_update]
  by_cases hq : q / 8 = p / 8
  · rw [if_pos ⟨hq, byte_lt hp⟩, hf _ _ (Nat.mod_lt q (by omega)), ← hq]
    simp only [eq_iff_mod hq]
    rfl
  · have hne : q ≠ p := fun heq => hq (heq ▸ rfl)
    rw [if_neg fun h => hq h.1, if_neg hne]

theorem bitAt_set (v : TBitVector kBits) {p : Nat} (hp : p < kBits) (q : Nat) :
    bitAt (v.set p).data q = if q = p then true else bitAt v.data q := by
  refine v.bitAt_update_pos hp _ (fun _ => true) (fun x j hj => ?_) q
  rw [BitVec.getLsbD_or, getLsbD_one_shiftLeft _ _ hj]
  split <;> simp [*]

theorem bitAt_reset (v : TBitVector kBits) {p : Nat} (hp : p < kBits) (q : Nat) :
    bitAt (v.reset p).data q = if q = p then false else bitAt v.data q := by
  refine v.bitAt_update_pos hp _ (fun _ => false) (fun x j hj => ?_) q
  rw [BitVec.getLsbD_and, BitVec.getLsbD_not, getLsbD_one_shiftLeft _ _ hj]
  split <;> simp [*]

theorem bitAt_flip (v : TBitVector kBits) {p : Nat} (hp : p < kBits) (q : Nat) :
    bitAt (v.flip p).data q = if q = p then !bitAt v.data q else bitAt v.data q := by
  refine v.bitAt_update_pos hp _ (fun b => !b) (fun x j hj => ?_) q
  rw [BitVec.getLsbD_xor, getLsbD_one_shiftLeft _ _ hj]
  split <;> simp [*]

theorem bitAt_fill (byte : BitVec 8) (q : Nat) :
    bitAt (fill kBits byte).data q = (decide (q / 8 < kWords kBits) && byte.getLsbD (q % 8)) := by
  by_cases hq : q / 8 < kWords kBits
  · show ((List.replicate (kWords kBits) byte).getD (q / 8) 0).getLsbD (q % 8) = _
    rw [List.getD_replicate _ hq]
    simp [hq]
  · rw [bitAt_behind _ (Nat.not_lt.mp hq)]
    simp [hq]

/-- The bits of `last_mask`. -/
theorem getLsbD_lastMask {j : Nat} (hj : j < 8) :
    (lastMask kBits).getLsbD j = decide (j < kBits % 8) := by
  have hall : ∀ k < 8, ∀ j < 8, ((1#8 <<< k) - 1).getLsbD j = decide (j < k) := by decide
  exact hall _ (Nat.mod_lt _ (by omega)) j hj

/-- Behind the masking of the last byte, no bit behind `kBits` is set. -/
theorem bitAt_clearPadding (v : TBitVector kBits) (q : Nat) :
    bitAt v.clearPadding.data q = (bitAt v.data q && decide (q < kBits)) := by
  unfold clearPadding
  split
  · rename_i hrest
    rw [bitAt_update]
    split
    · rename_i hq
      have hmod : q % 8 < 8 := Nat.mod_lt q (by omega)
      have hbelow : q % 8 < kBits % 8 ↔ q < kBits := by
        unfold kWords at hq
        omega
      rw [BitVec.getLsbD_and, getLsbD_lastMask hmod, ← hq.1]
      simp only [hbelow]
      rfl
    · rename_i hq
      by_cases hbit : q / 8 < kWords kBits
      · have hbelow : q < kBits := by
          unfold kWords at hq hbit
          omega
        simp [hbelow]
      · rw [bitAt_behind v (Nat.not_lt.mp hbit), Bool.false_and]
  · rename_i hrest
    by_cases hbit : q / 8 < kWords kBits
    · have hbelow : q < kBits := by
        unfold kWords at hbit
        omega
      simp [hbelow]
    · rw [bitAt_behind v (Nat.not_lt.mp hbit), Bool.false_and]

/-! ## Loops -/

/-- A write of one bit. -/
def Writes (b : Bool) (one : TBitVector kBits → Nat → TBitVector kBits) : Prop :=
  ∀ v p, p < kBits → ∀ q, bitAt (one v p).data q = if q = p then b else bitAt v.data q

theorem writes_set : Writes true (@set kBits) := fun v _ hp q => v.bitAt_set hp q

theorem writes_reset : Writes false (@reset kBits) := fun v _ hp q => v.bitAt_reset hp q

variable {b : Bool} {one : TBitVector kBits → Nat → TBitVector kBits}

theorem bitAt_batchHead (hone : Writes b one) {stop : Nat} (hstop : stop ≤ kBits)
    (v : TBitVector kBits) (idx : Nat) :
    idx ≤ (batchHead one stop v idx).2 ∧
      ((batchHead one stop v idx).2 < stop → (batchHead one stop v idx).2 % 8 = 0) ∧
      (batchHead one stop v idx).2 ≤ max idx stop ∧
      ∀ q, bitAt (batchHead one stop v idx).1.data q =
        if idx ≤ q ∧ q < (batchHead one stop v idx).2 then b else bitAt v.data q := by
  fun_induction batchHead one stop v idx with
  | case1 v idx hloop ih =>
      obtain ⟨hle, haligned, hend, hbits⟩ := ih
      refine ⟨by omega, haligned, by omega, fun q => ?_⟩
      rw [hbits, hone v idx (by omega) q]
      grind
  | case2 v idx hdone =>
      refine ⟨Nat.le_refl _, fun hlt => ?_, Nat.le_max_left _ _, fun q => ?_⟩
      · by_contra hne
        exact hdone ⟨hlt, hne⟩
      · rw [if_neg (by omega)]

/-- A byte of equal bits. -/
theorem bitAt_update_byte (v : TBitVector kBits) {idx : Nat} (haligned : idx % 8 = 0)
    (hidx : idx < kBits) {byte : BitVec 8} (hbyte : ∀ j < 8, byte.getLsbD j = b) (q : Nat) :
    bitAt (v.update (idx / 8) fun _ => byte).data q =
      if idx ≤ q ∧ q < idx + 8 then b else bitAt v.data q := by
  rw [bitAt_update, hbyte _ (Nat.mod_lt q (by omega))]
  have hsame : q / 8 = idx / 8 ∧ idx / 8 < kWords kBits ↔ idx ≤ q ∧ q < idx + 8 := by
    have hlt := byte_lt hidx
    omega
  simp only [hsame]

theorem bitAt_batchBytes {byte : BitVec 8} (hbyte : ∀ j < 8, byte.getLsbD j = b) {stop : Nat}
    (hstop : stop ≤ kBits) (v : TBitVector kBits) (idx : Nat)
    (haligned : idx < stop → idx % 8 = 0) :
    idx ≤ (batchBytes byte stop v idx).2 ∧
      (batchBytes byte stop v idx).2 ≤ max idx stop ∧
      ∀ q, bitAt (batchBytes byte stop v idx).1.data q =
        if idx ≤ q ∧ q < (batchBytes byte stop v idx).2 then b else bitAt v.data q := by
  fun_induction batchBytes byte stop v idx with
  | case1 v idx hloop ih =>
      have hmod := haligned (by omega)
      obtain ⟨hle, hend, hbits⟩ := ih (by omega)
      refine ⟨by omega, by omega, fun q => ?_⟩
      rw [hbits, v.bitAt_update_byte hmod (by omega) hbyte q]
      grind
  | case2 v idx hdone =>
      refine ⟨Nat.le_refl _, Nat.le_max_left _ _, fun q => ?_⟩
      rw [if_neg (by omega)]

theorem bitAt_batchTail (hone : Writes b one) {stop : Nat} (hstop : stop ≤ kBits)
    (v : TBitVector kBits) (idx q : Nat) :
    bitAt (batchTail one stop v idx).data q =
      if idx ≤ q ∧ q < stop then b else bitAt v.data q := by
  fun_induction batchTail one stop v idx with
  | case1 v idx hloop ih =>
      rw [ih, hone v idx (by omega) q]
      grind
  | case2 v idx hdone => rw [if_neg (by omega)]

/-- The three loops write the bits of the range that are below `kBits`. -/
theorem bitAt_batch (hone : Writes b one) {byte : BitVec 8} (hbyte : ∀ j < 8, byte.getLsbD j = b)
    (v : TBitVector kBits) (start count q : Nat) :
    bitAt (batch one byte v start count).data q =
      if start ≤ q ∧ q < min (start + count) kBits then b else bitAt v.data q := by
  have hstop : min (start + count) kBits ≤ kBits := Nat.min_le_right _ _
  obtain ⟨hhead, haligned, hheadEnd, hheadBits⟩ := bitAt_batchHead hone hstop v start
  obtain ⟨hbytes, hbytesEnd, hbytesBits⟩ := bitAt_batchBytes hbyte hstop
    (batchHead one (min (start + count) kBits) v start).1 _ haligned
  unfold batch
  rw [bitAt_batchTail hone hstop, hbytesBits, hheadBits]
  grind

/-- The loop of `ClearBits`. -/
theorem bitAt_clearBits (v : TBitVector kBits) {offset bitNum : Nat}
    (h : offset + bitNum ≤ kBits) (q : Nat) :
    bitAt (v.clearBits offset bitNum).data q =
      if offset ≤ q ∧ q < offset + bitNum then false else bitAt v.data q := by
  have hloop : ∀ n, offset + n ≤ kBits →
      bitAt ((List.range n).foldl (fun v i => v.reset (offset + i)) v).data q =
        if offset ≤ q ∧ q < offset + n then false else bitAt v.data q := by
    intro n hn
    induction n with
    | zero => rw [if_neg (by omega)]; rfl
    | succ n ih =>
        rw [List.range_succ, List.foldl_append, List.foldl_cons, List.foldl_nil,
          bitAt_reset _ (by omega), ih (by omega)]
        grind
  unfold clearBits
  split
  · rw [if_neg (by omega)]
  · exact hloop bitNum h

/-- The loop of `SetBits` and of the constructor that takes an integer. -/
theorem bitAt_setLoop {w : Nat} (v : TBitVector kBits) (value : BitVec w) {offset n : Nat}
    (hn : offset + n ≤ kBits) (q : Nat) :
    bitAt ((List.range n).foldl
      (fun v i => if value &&& 1#w <<< i ≠ 0 then v.set (offset + i) else v) v).data q =
      (bitAt v.data q || decide (offset ≤ q ∧ q < offset + n) && value.getLsbD (q - offset)) := by
  have hvalue := and_one_shiftLeft_ne_zero value
  induction n with
  | zero =>
      have hnone : ¬ (offset ≤ q ∧ q < offset + 0) := by omega
      rw [decide_eq_false hnone, Bool.false_and, Bool.or_false]
      rfl
  | succ n ih =>
      rw [List.range_succ, List.foldl_append, List.foldl_cons, List.foldl_nil]
      have hih := ih (by omega)
      by_cases hbit : value.getLsbD n = true
      · rw [if_pos ((hvalue n).mpr hbit), bitAt_set _ (by omega), hih]
        grind
      · rw [if_neg fun hne => hbit ((hvalue n).mp hne), hih]
        grind

theorem bitAt_setBits {w : Nat} (v : TBitVector kBits) (value : BitVec w) {offset bitNum : Nat}
    (h : offset + bitNum ≤ kBits) (q : Nat) :
    bitAt (v.setBits value offset bitNum).data q =
      if offset ≤ q ∧ q < offset + bitNum then value.getLsbD (q - offset)
      else bitAt v.data q := by
  unfold setBits
  split
  · rw [if_neg (by omega)]
  · rw [bitAt_setLoop _ value h, bitAt_clearBits v h]
    split
    · rename_i hq
      rw [decide_eq_true hq, Bool.true_and, Bool.false_or]
    · rename_i hq
      rw [decide_eq_false hq, Bool.false_and, Bool.or_false]

/-! ## The set of positions -/

/-- The bits of the array are the positions of the set, and these are below `kBits`. -/
structure Refines (v : TBitVector kBits) (s : Finset Nat) : Prop where
  bits : ∀ q, bitAt v.data q = decide (q ∈ s)
  inside : ∀ q ∈ s, q < kBits

variable {v v' : TBitVector kBits} {s s' : Finset Nat}

theorem refines_clearAll : Refines v.clearAll ∅ where
  bits := by
    intro q
    unfold clearAll
    rw [bitAt_fill]
    simp
  inside := fun _ hq => absurd hq (Finset.notMem_empty _)

theorem Refines.set (h : Refines v s) {p : Nat} (hp : p < kBits) :
    Refines (v.set p) (insert p s) where
  bits := by
    intro q
    rw [v.bitAt_set hp, h.bits]
    grind
  inside := by
    intro q hq
    rcases Finset.mem_insert.mp hq with rfl | hq
    · exact hp
    · exact h.inside q hq

theorem Refines.reset (h : Refines v s) {p : Nat} (hp : p < kBits) :
    Refines (v.reset p) (s.erase p) where
  bits := by
    intro q
    rw [v.bitAt_reset hp, h.bits]
    grind
  inside := fun q hq => h.inside q (Finset.mem_of_mem_erase hq)

theorem Refines.flip (h : Refines v s) {p : Nat} (hp : p < kBits) :
    Refines (v.flip p) (symmDiff s {p}) where
  bits := by
    intro q
    rw [v.bitAt_flip hp, h.bits]
    simp only [Finset.mem_symmDiff, Finset.mem_singleton]
    grind
  inside := by
    intro q hq
    rw [Finset.mem_symmDiff, Finset.mem_singleton] at hq
    rcases hq with ⟨hq, -⟩ | ⟨rfl, -⟩
    · exact h.inside q hq
    · exact hp

/-- A vector whose bits behind `kBits` are masked. -/
theorem refines_clearPadding {u : TBitVector kBits}
    (h : ∀ q < kBits, bitAt u.data q = decide (q ∈ s)) (hs : s ⊆ Finset.range kBits) :
    Refines u.clearPadding s where
  bits := by
    intro q
    rw [bitAt_clearPadding]
    by_cases hq : q < kBits
    · simp [hq, h q hq]
    · have hnot : q ∉ s := fun hmem => hq (Finset.mem_range.mp (hs hmem))
      simp [hq, hnot]
  inside := fun q hq => Finset.mem_range.mp (hs hq)

theorem refines_setAll : Refines v.setAll (Finset.range kBits) := by
  refine refines_clearPadding (fun q hq => ?_) (Finset.Subset.refl _)
  rw [bitAt_fill, getLsbD_ones _ (Nat.mod_lt q (by omega))]
  simp [byte_lt hq, hq]

theorem Refines.clearBits (h : Refines v s) {offset bitNum : Nat}
    (hrange : offset + bitNum ≤ kBits) :
    Refines (v.clearBits offset bitNum) (s \ Finset.Ico offset (offset + bitNum)) where
  bits := by
    intro q
    rw [v.bitAt_clearBits hrange, h.bits]
    simp only [Finset.mem_sdiff, Finset.mem_Ico]
    grind
  inside := fun q hq => h.inside q (Finset.mem_sdiff.mp hq).1

theorem Refines.setBits (h : Refines v s) {w : Nat} (value : BitVec w) {offset bitNum : Nat}
    (hrange : offset + bitNum ≤ kBits) :
    Refines (v.setBits value offset bitNum) (s \ Finset.Ico offset (offset + bitNum) ∪
      ((Finset.range bitNum).filter (value.getLsbD ·)).image (offset + ·)) where
  bits := by
    intro q
    have himage : q ∈ ((Finset.range bitNum).filter (value.getLsbD ·)).image (offset + ·) ↔
        (offset ≤ q ∧ q < offset + bitNum) ∧ value.getLsbD (q - offset) = true := by
      simp only [Finset.mem_image, Finset.mem_filter, Finset.mem_range]
      constructor
      · rintro ⟨i, ⟨hi, hbit⟩, rfl⟩
        refine ⟨by omega, ?_⟩
        rwa [Nat.add_sub_cancel_left]
      · rintro ⟨hq, hbit⟩
        exact ⟨q - offset, ⟨by omega, hbit⟩, by omega⟩
    rw [v.bitAt_setBits value hrange, h.bits]
    simp only [Finset.mem_union, Finset.mem_sdiff, Finset.mem_Ico, himage]
    grind
  inside := by
    intro q hq
    rcases Finset.mem_union.mp hq with hq | hq
    · exact h.inside q (Finset.mem_sdiff.mp hq).1
    · obtain ⟨i, hi, rfl⟩ := Finset.mem_image.mp hq
      have hlt := Finset.mem_range.mp (Finset.mem_filter.mp hi).1
      omega

theorem Refines.setBatch (h : Refines v s) (start count : Nat) :
    Refines (v.setBatch start count)
      (s ∪ Finset.Ico start (start + count) ∩ Finset.range kBits) where
  bits := by
    intro q
    unfold TBitVector.setBatch
    rw [bitAt_batch writes_set getLsbD_ones, h.bits]
    simp only [Finset.mem_union, Finset.mem_inter, Finset.mem_Ico, Finset.mem_range]
    grind
  inside := by
    intro q hq
    rcases Finset.mem_union.mp hq with hq | hq
    · exact h.inside q hq
    · exact Finset.mem_range.mp (Finset.mem_inter.mp hq).2

theorem Refines.clearBatch (h : Refines v s) (start count : Nat) :
    Refines (v.clearBatch start count) (s \ Finset.Ico start (start + count)) where
  bits := by
    intro q
    have hzeros : ∀ j < 8, (0 : BitVec 8).getLsbD j = false := by decide
    have hinside := h.inside q
    unfold TBitVector.clearBatch
    rw [bitAt_batch writes_reset hzeros, h.bits]
    simp only [Finset.mem_sdiff, Finset.mem_Ico]
    grind
  inside := fun q hq => h.inside q (Finset.mem_sdiff.mp hq).1

/-- The bits of a byte-wise operation. -/
theorem bitAt_zipWith (f : BitVec 8 → BitVec 8 → BitVec 8) (g : Bool → Bool → Bool)
    (hf : ∀ x y : BitVec 8, ∀ j, (f x y).getLsbD j = g (x.getLsbD j) (y.getLsbD j))
    (v v' : TBitVector kBits) {q : Nat} (hq : q / 8 < kWords kBits) :
    bitAt (List.zipWith f v.data v'.data) q = g (bitAt v.data q) (bitAt v'.data q) := by
  have hlt : q / 8 < v.data.length := by rw [v.length_data]; exact hq
  have hlt' : q / 8 < v'.data.length := by rw [v'.length_data]; exact hq
  unfold bitAt
  rw [List.getD_eq_getElem _ _ (by rw [List.length_zipWith]; omega), List.getElem_zipWith, hf,
    List.getD_eq_getElem _ _ hlt, List.getD_eq_getElem _ _ hlt']

/-- A byte-wise operation that gives no bits where there are none. -/
theorem refines_zipWith (h : Refines v s) (h' : Refines v' s')
    {f : BitVec 8 → BitVec 8 → BitVec 8} {g : Bool → Bool → Bool} {r : Finset Nat}
    {u : TBitVector kBits} (hu : u.data = List.zipWith f v.data v'.data)
    (hf : ∀ x y : BitVec 8, ∀ j, (f x y).getLsbD j = g (x.getLsbD j) (y.getLsbD j))
    (hr : ∀ q, decide (q ∈ r) = g (decide (q ∈ s)) (decide (q ∈ s')))
    (hinside : r ⊆ s ∪ s') : Refines u r := by
  have hbelow : ∀ q ∈ r, q < kBits := by
    intro q hq
    rcases Finset.mem_union.mp (hinside hq) with hq | hq
    · exact h.inside q hq
    · exact h'.inside q hq
  refine ⟨fun q => ?_, hbelow⟩
  by_cases hq : q / 8 < kWords kBits
  · rw [hu, bitAt_zipWith f g hf v v' hq, h.bits, h'.bits, hr]
  · have hnot : q ∉ r := fun hmem => hq (byte_lt (hbelow q hmem))
    rw [u.bitAt_behind (Nat.not_lt.mp hq)]
    simp [hnot]

theorem Refines.and (h : Refines v s) (h' : Refines v' s') : Refines (v.and v') (s ∩ s') := by
  refine refines_zipWith h h' (g := Bool.and) rfl (fun x y j => BitVec.getLsbD_and) (fun q => ?_) ?_
  · simp [Bool.decide_and]
  · exact Finset.Subset.trans Finset.inter_subset_left Finset.subset_union_left

theorem Refines.or (h : Refines v s) (h' : Refines v' s') : Refines (v.or v') (s ∪ s') := by
  refine refines_zipWith h h' (g := Bool.or) rfl (fun x y j => BitVec.getLsbD_or) (fun q => ?_)
    (Finset.Subset.refl _)
  simp [Bool.decide_or]

theorem Refines.xor (h : Refines v s) (h' : Refines v' s') :
    Refines (v.xor v') (symmDiff s s') := by
  refine refines_zipWith h h' (g := Bool.xor) rfl (fun x y j => BitVec.getLsbD_xor) (fun q => ?_) ?_
  · simp only [Finset.mem_symmDiff]
    by_cases hq : q ∈ s <;> by_cases hq' : q ∈ s' <;> simp [hq, hq']
  · intro q hq
    rw [Finset.mem_symmDiff] at hq
    exact Finset.mem_union.mpr (hq.imp And.left And.left)

theorem Refines.not (h : Refines v s) : Refines v.not (Finset.range kBits \ s) := by
  refine refines_clearPadding (fun q hq => ?_) Finset.sdiff_subset
  have hlt : q / 8 < v.data.length := by rw [v.length_data]; exact byte_lt hq
  have hbit := h.bits q
  unfold bitAt at hbit ⊢
  rw [List.getD_eq_getElem _ _ hlt] at hbit
  rw [List.getD_eq_getElem _ _ (by rw [List.length_map]; exact hlt), List.getElem_map,
    BitVec.getLsbD_not, hbit]
  have hmod : q % 8 < 8 := Nat.mod_lt q (by omega)
  simp [hmod, hq]

/-! ## Queries -/

theorem byte_getLsbD (v : TBitVector kBits) (i : Nat) {j : Nat} (hj : j < 8) :
    (v.byte i).getLsbD j = bitAt v.data (i * 8 + j) :=
  (bitAt_mul_add v.data i hj).symm

theorem Refines.test (h : Refines v s) (p : Nat) : v.test p = decide (p ∈ s) := by
  rw [test_eq, h.bits]

/-- The bits of the last byte behind `kBits` are zero. -/
theorem Refines.padding (h : Refines v s) {j : Nat} (hj : j < 8)
    (hbehind : kBits ≤ (kWords kBits - 1) * 8 + j) :
    (v.byte (kWords kBits - 1)).getLsbD j = false := by
  rw [byte_getLsbD v _ hj, h.bits, decide_eq_false_iff_not]
  exact fun hmem => absurd (h.inside _ hmem) (Nat.not_lt.mpr hbehind)

theorem Refines.eq (h : Refines v s) (h' : Refines v' s') : v.eq v' = decide (s = s') := by
  have hdata : v.eq v' = true ↔ v.data = v'.data := by
    unfold TBitVector.eq
    rw [List.all_eq_true]
    constructor
    · intro hall
      refine eq_of_bitAt_eq (v.length_data.trans v'.length_data.symm) fun q => ?_
      by_cases hq : q / 8 < kWords kBits
      · have hbyte := of_decide_eq_true (hall (q / 8) (List.mem_range.mpr hq))
        exact congrArg (fun x : BitVec 8 => x.getLsbD (q % 8)) hbyte
      · rw [v.bitAt_behind (Nat.not_lt.mp hq), v'.bitAt_behind (Nat.not_lt.mp hq)]
    · intro heq i _
      unfold byte
      rw [heq]
      exact decide_eq_true rfl
  have hset : v.data = v'.data ↔ s = s' := by
    constructor
    · intro heq
      ext q
      have hbits := h.bits q
      rw [heq, h'.bits] at hbits
      simpa using hbits.symm
    · rintro rfl
      refine eq_of_bitAt_eq (v.length_data.trans v'.length_data.symm) fun q => ?_
      rw [h.bits, h'.bits]
  rw [Bool.eq_iff_iff, hdata, hset, decide_eq_true_iff]

theorem popcount_eq (x : BitVec 8) : popcount x = x.cpop.toNat :=
  BitVec.toNat_cpop_setWidth_eq_of_le (by omega)

theorem Refines.count (h : Refines v s) : v.count = s.card := by
  have hbytes : (List.range (kWords kBits)).map (fun i => popcount (v.byte i)) =
      v.data.map fun x => x.cpop.toNat := by
    refine List.ext_getElem (by simp [v.length_data]) fun i hi hi' => ?_
    rw [List.length_map] at hi'
    rw [List.getElem_map, List.getElem_map, List.getElem_range, popcount_eq]
    exact congrArg (fun x : BitVec 8 => x.cpop.toNat) (List.getD_eq_getElem _ _ hi')
  have hlast : kBits % 8 ≠ 0 →
      popcount (v.byte (kWords kBits - 1) &&& ~~~lastMask kBits) = 0 := by
    intro hrest
    have hzero : v.byte (kWords kBits - 1) &&& ~~~lastMask kBits = 0 := by
      refine BitVec.eq_of_getLsbD_eq fun j hj => ?_
      rw [BitVec.getLsbD_and, BitVec.getLsbD_not, getLsbD_lastMask hj]
      by_cases hbelow : j < kBits % 8
      · simp [hbelow]
      · have hbehind : kBits ≤ (kWords kBits - 1) * 8 + j := by
          unfold kWords
          omega
        simp [h.padding hj hbehind]
    rw [hzero]
    rfl
  have hcard : (List.range (kWords kBits * 8)).countP (bitAt v.data) = s.card := by
    have hfilter : (Finset.range (kWords kBits * 8)).filter (bitAt v.data · = true) = s := by
      ext q
      rw [Finset.mem_filter, Finset.mem_range, h.bits, decide_eq_true_iff]
      refine ⟨And.right, fun hq => ⟨?_, hq⟩⟩
      have hlt := h.inside q hq
      unfold kWords
      omega
    rw [← hfilter, List.countP_eq_length_filter]
    show _ = ((List.range (kWords kBits * 8)).filter fun q => decide (bitAt v.data q = true)).length
    simp
  show (if kBits % 8 ≠ 0 then ((List.range (kWords kBits)).map fun i => popcount (v.byte i)).sum -
      popcount (v.byte (kWords kBits - 1) &&& ~~~lastMask kBits)
    else ((List.range (kWords kBits)).map fun i => popcount (v.byte i)).sum) = s.card
  rw [hbytes, sum_cpop, v.length_data, hcard]
  split
  · rename_i hrest
    rw [hlast hrest, Nat.sub_zero]
  · rfl

theorem Refines.none (h : Refines v s) : v.none = decide (s = ∅) := by
  rw [Bool.eq_iff_iff, decide_eq_true_iff]
  unfold TBitVector.none
  rw [List.all_eq_true]
  constructor
  · intro hall
    rw [Finset.eq_empty_iff_forall_notMem]
    intro q hq
    have hlt := byte_lt (h.inside q hq)
    have hzero : v.byte (q / 8) = 0 := of_decide_eq_true (hall _ (List.mem_range.mpr hlt))
    have hbit := h.bits q
    have hbyte : bitAt v.data q = (v.byte (q / 8)).getLsbD (q % 8) := rfl
    rw [hbyte, hzero] at hbit
    simp [hq] at hbit
  · rintro rfl i -
    refine decide_eq_true (BitVec.eq_of_getLsbD_eq fun j hj => ?_)
    rw [byte_getLsbD v _ hj, h.bits]
    simp

theorem Refines.any (h : Refines v s) : v.any = decide s.Nonempty := by
  unfold TBitVector.any
  rw [h.none, Bool.eq_iff_iff, decide_eq_true_iff, Finset.nonempty_iff_ne_empty]
  simp

/-- A byte is full when all its bits are set. -/
theorem byte_eq_ones (h : Refines v s) (i : Nat) :
    v.byte i = 0xff ↔ ∀ j < 8, i * 8 + j ∈ s := by
  constructor
  · intro heq j hj
    have hbit := byte_getLsbD v i hj
    rw [heq, getLsbD_ones j hj, h.bits] at hbit
    simpa using hbit.symm
  · intro hall
    refine BitVec.eq_of_getLsbD_eq fun j hj => ?_
    rw [byte_getLsbD v _ hj, h.bits, getLsbD_ones j hj]
    simpa using hall j hj

theorem getLsbD_fullMask (hpos : 0 < kBits) {j : Nat} (hj : j < 8) :
    (fullMask kBits).getLsbD j = decide ((kWords kBits - 1) * 8 + j < kBits) := by
  unfold fullMask
  split
  · rw [getLsbD_ones j hj, eq_comm, decide_eq_true_iff]
    unfold kWords
    omega
  · rw [getLsbD_lastMask hj]
    unfold kWords
    simp only [decide_eq_decide]
    omega

/-- The last byte is full when all its bits below `kBits` are set. -/
theorem last_eq_fullMask (hpos : 0 < kBits) (h : Refines v s) :
    v.byte (kWords kBits - 1) &&& fullMask kBits = fullMask kBits ↔
      ∀ j < 8, (kWords kBits - 1) * 8 + j < kBits → (kWords kBits - 1) * 8 + j ∈ s := by
  constructor
  · intro heq j hj hbelow
    have hbit := congrArg (fun x : BitVec 8 => x.getLsbD j) heq
    simp only [BitVec.getLsbD_and] at hbit
    rw [getLsbD_fullMask hpos hj, byte_getLsbD v _ hj, h.bits] at hbit
    simpa [hbelow] using hbit
  · intro hall
    refine BitVec.eq_of_getLsbD_eq fun j hj => ?_
    rw [BitVec.getLsbD_and, getLsbD_fullMask hpos hj, byte_getLsbD v _ hj, h.bits]
    by_cases hbelow : (kWords kBits - 1) * 8 + j < kBits
    · simp [hbelow, hall j hj hbelow]
    · simp [hbelow]

theorem Refines.all (hpos : 0 < kBits) (h : Refines v s) :
    v.all = decide (s = Finset.range kBits) := by
  rw [Bool.eq_iff_iff, decide_eq_true_iff]
  unfold TBitVector.all
  rw [Bool.and_eq_true, List.all_eq_true, decide_eq_true_iff, last_eq_fullMask hpos h]
  have hlast : kBits ≤ (kWords kBits - 1) * 8 + 8 := by
    unfold kWords
    omega
  constructor
  · rintro ⟨hbytes, hend⟩
    ext q
    rw [Finset.mem_range]
    refine ⟨h.inside q, fun hq => ?_⟩
    by_cases hbyte : q / 8 < kWords kBits - 1
    · have hfull := of_decide_eq_true (hbytes _ (List.mem_range.mpr hbyte))
      have hmem := (byte_eq_ones h (q / 8)).mp hfull (q % 8) (Nat.mod_lt q (by omega))
      rwa [show q / 8 * 8 + q % 8 = q by omega] at hmem
    · have hsame : (kWords kBits - 1) * 8 + q % 8 = q := by omega
      have hmem := hend (q % 8) (Nat.mod_lt q (by omega)) (by omega)
      rwa [hsame] at hmem
  · rintro rfl
    refine ⟨fun i hi => decide_eq_true ((byte_eq_ones h i).mpr fun j hj => ?_),
      fun j _ hbelow => ?_⟩
    · rw [List.mem_range] at hi
      rw [Finset.mem_range]
      unfold kWords at hi
      omega
    · exact Finset.mem_range.mpr hbelow

/-- A byte that is zero has no positions. -/
theorem not_mem_of_byte_eq_zero (h : Refines v s) {q : Nat} (hbyte : v.byte (q / 8) = 0) :
    q ∉ s := by
  intro hq
  have hbit : bitAt v.data q = (v.byte (q / 8)).getLsbD (q % 8) := rfl
  rw [h.bits, hbyte] at hbit
  simp [hq] at hbit

/-- The first set bit from byte `i` on. -/
theorem Refines.findFrom (h : Refines v s) (i : Nat) :
    IsFirst kBits (fun q => i * 8 ≤ q ∧ q ∈ s) (v.findFrom i) := by
  unfold TBitVector.findFrom
  split
  · rename_i k hfind
    obtain ⟨hne, hmem, hbefore⟩ := List.find?_range'_eq_some.mp hfind
    have hge : i ≤ k := (List.mem_range'_1.mp hmem).1
    obtain ⟨hlt, hset, hlow⟩ := lowest_setWidth (v := 32) (by omega) (of_decide_eq_true hne)
    rw [byte_getLsbD v k hlt, h.bits, decide_eq_true_iff] at hset
    refine ⟨.inl ⟨h.inside _ hset, by omega, hset⟩, ?_⟩
    rintro q hq - ⟨hfrom, hmem⟩
    by_cases hbyte : q / 8 = k
    · have hclear := hlow (q % 8) (by omega)
      rw [byte_getLsbD v k (Nat.mod_lt q (by omega)), h.bits] at hclear
      have hsame : k * 8 + q % 8 = q := by omega
      rw [hsame] at hclear
      simp [hmem] at hclear
    · have hzero := hbefore (q / 8) (by omega) (by omega)
      simp only [ne_eq, decide_not, Bool.not_not, decide_eq_true_eq] at hzero
      exact not_mem_of_byte_eq_zero h hzero hmem
  · rename_i hfind
    rw [List.find?_range'_eq_none] at hfind
    refine ⟨.inr rfl, ?_⟩
    rintro q hq - ⟨hfrom, hmem⟩
    have hlt := byte_lt (h.inside q hmem)
    have hzero := hfind (q / 8) (by omega) (by omega)
    simp only [ne_eq, decide_not, Bool.not_not, decide_eq_true_eq] at hzero
    exact not_mem_of_byte_eq_zero h hzero hmem

theorem Refines.findFirst (h : Refines v s) : IsFirst kBits (· ∈ s) v.findFirst := by
  have hfrom := h.findFrom 0
  simp only [Nat.zero_mul, Nat.zero_le, true_and] at hfrom
  exact hfrom

theorem Refines.findNext (h : Refines v s) (p : Nat) :
    IsFirst kBits (fun q => p ≤ q ∧ q ∈ s) (v.findNext p) := by
  unfold TBitVector.findNext
  split
  · refine ⟨.inr rfl, ?_⟩
    rintro q hq - ⟨hle, -⟩
    omega
  · rename_i hp
    have hbits : ∀ j, ((v.byte (p / 8)) >>> (p % 8)).getLsbD j =
        (v.byte (p / 8)).getLsbD (p % 8 + j) := fun j => BitVec.getLsbD_ushiftRight _ _ _
    dsimp only
    split
    · rename_i hne
      obtain ⟨-, hset, hlow⟩ := lowest_setWidth (v := 32) (by omega) hne
      rw [hbits] at hset
      have hlt := BitVec.lt_of_getLsbD hset
      rw [byte_getLsbD v _ hlt, h.bits, decide_eq_true_iff] at hset
      have hsame : ∀ j, p / 8 * 8 + (p % 8 + j) = p + j := by omega
      rw [hsame] at hset
      refine ⟨.inl ⟨h.inside _ hset, Nat.le_add_right _ _, hset⟩, ?_⟩
      rintro q hq - ⟨hle, hmem⟩
      have hclear := hlow (q - p) (by omega)
      rw [hbits, byte_getLsbD v _ (by omega), h.bits, hsame, Nat.add_sub_cancel' hle] at hclear
      simp [hmem] at hclear
    · rename_i hzero
      rw [not_not] at hzero
      -- The rest of the byte is empty, so that the search goes on at the next one.
      have hfrom := h.findFrom (p / 8 + 1)
      have hsame : ∀ q, p ≤ q ∧ q ∈ s ↔ (p / 8 + 1) * 8 ≤ q ∧ q ∈ s := by
        intro q
        refine ⟨fun hq => ⟨?_, hq.2⟩, fun hq => ⟨by omega, hq.2⟩⟩
        by_contra hbyte
        have hclear := hbits (q - p)
        rw [hzero, byte_getLsbD v _ (by omega), h.bits] at hclear
        have hpos : p / 8 * 8 + (p % 8 + (q - p)) = q := by omega
        rw [hpos] at hclear
        simp [hq.2] at hclear
      simp only [hsame]
      exact hfrom

theorem Refines.findFirstZero (hpos : 0 < kBits) (h : Refines v s) :
    IsFirst kBits (· ∉ s) v.findFirstZero := by
  -- A byte that is not full has its first clear bit where `ctz` finds it.
  have hbyte : ∀ k j, j < 8 → k * 8 + j < kBits → k * 8 + j ∉ s →
      (∀ q < k * 8, q ∈ s) →
      IsFirst kBits (· ∉ s) (k * 8 + (~~~((v.byte k).setWidth 32)).ctz.toNat) := by
    intro k j hj hbelow hnot hfull
    have hclear : (v.byte k).getLsbD j = false := by
      rw [byte_getLsbD v k hj, h.bits]
      simpa using hnot
    obtain ⟨hle, hlowest, hlow⟩ := lowest_not_setWidth (v := 32) (by omega) hj hclear
    rw [byte_getLsbD v k (by omega), h.bits, decide_eq_false_iff_not] at hlowest
    refine ⟨.inl ⟨by omega, hlowest⟩, fun q hq _ => not_not.mpr ?_⟩
    by_cases hbefore : q < k * 8
    · exact hfull q hbefore
    · have hset := hlow (q - k * 8) (by omega)
      rw [byte_getLsbD v k (by omega), h.bits, Nat.add_sub_cancel' (by omega)] at hset
      simpa using hset
  have hlast : kBits ≤ (kWords kBits - 1) * 8 + 8 := by
    unfold kWords
    omega
  have hbelow : ∀ k < kWords kBits - 1, k * 8 + 8 ≤ kBits := by
    intro k hk
    unfold kWords at hk
    omega
  have hfull : ∀ k, (∀ i < k, v.byte i = 0xff) → ∀ q < k * 8, q ∈ s := by
    intro k hk q hq
    have hmem := (byte_eq_ones h (q / 8)).mp (hk _ (by omega)) (q % 8) (Nat.mod_lt q (by omega))
    rwa [show q / 8 * 8 + q % 8 = q by omega] at hmem
  unfold TBitVector.findFirstZero
  split
  · rename_i k hfind
    obtain ⟨hne, hmem, hbefore⟩ := List.find?_range_eq_some.mp hfind
    have hlt := List.mem_range.mp hmem
    have hnot : ¬ ∀ j < 8, k * 8 + j ∈ s := by
      rw [← byte_eq_ones h]
      exact of_decide_eq_true hne
    push Not at hnot
    obtain ⟨j, hj, hnot⟩ := hnot
    refine hbyte k j hj (by have := hbelow k hlt; omega) hnot (hfull k fun i hi => ?_)
    have hones := hbefore i hi
    simpa using hones
  · rename_i hfind
    rw [List.find?_range_eq_none] at hfind
    have hbytes : ∀ i < kWords kBits - 1, v.byte i = 0xff := by
      intro i hi
      have hones := hfind i hi
      simpa using hones
    split
    · rename_i hne
      rw [ne_eq, last_eq_fullMask hpos h] at hne
      push Not at hne
      obtain ⟨j, hj, hbelow, hnot⟩ := hne
      exact hbyte _ j hj hbelow hnot (hfull _ hbytes)
    · rename_i heq
      rw [not_not, last_eq_fullMask hpos h] at heq
      refine ⟨.inr rfl, fun q hq _ => not_not.mpr ?_⟩
      by_cases hbefore : q < (kWords kBits - 1) * 8
      · exact hfull _ hbytes q hbefore
      · have hmem := heq (q - (kWords kBits - 1) * 8) (by omega) (by omega)
        rwa [Nat.add_sub_cancel' (by omega)] at hmem

/-- `std::bitset::set`. -/
theorem getLsbD_or_one_shiftLeft {n p : Nat} (hp : p < n) (x : BitVec n) (q : Nat) :
    (x ||| 1#n <<< p).getLsbD q = (x.getLsbD q || decide (q = p)) := by
  rw [BitVec.getLsbD_or]
  by_cases hq : q < n
  · rw [getLsbD_one_shiftLeft p q hq]
  · have hne : q ≠ p := by omega
    rw [BitVec.getLsbD_of_ge x q (Nat.not_lt.mp hq), BitVec.getLsbD_of_ge _ q (Nat.not_lt.mp hq)]
    simp [hne]

/-- The inner loop of `ToBitset`. -/
theorem Refines.bitsetByte (h : Refines v s) {n : Nat} (hn : kBits ≤ n) (i : Nat)
    (result : BitVec n) (q : Nat) {bits : Nat} (hbits : bits ≤ 8) :
    (v.bitsetByte i bits result).getLsbD q =
      (result.getLsbD q || decide (i * 8 ≤ q ∧ q < i * 8 + bits ∧ q ∈ s)) := by
  induction bits with
  | zero =>
      have hnone : decide (i * 8 ≤ q ∧ q < i * 8 + 0 ∧ q ∈ s) = false :=
        decide_eq_false (by omega)
      rw [hnone, Bool.or_false]
      rfl
  | succ m ih =>
      have hstep : v.bitsetByte i (m + 1) result =
          if i * 8 + m < kBits ∧ v.byte i &&& 1#8 <<< m ≠ 0 then
            v.bitsetByte i m result ||| 1#n <<< (i * 8 + m)
          else v.bitsetByte i m result := by
        unfold TBitVector.bitsetByte
        rw [List.range_succ, List.foldl_append, List.foldl_cons, List.foldl_nil]
      have hbit : i * 8 + m < kBits ∧ v.byte i &&& 1#8 <<< m ≠ 0 ↔ i * 8 + m ∈ s := by
        rw [and_one_shiftLeft_ne_zero, byte_getLsbD v i (by omega), h.bits, decide_eq_true_iff]
        exact ⟨And.right, fun hmem => ⟨h.inside _ hmem, hmem⟩⟩
      have hih := ih (by omega)
      rw [hstep]
      by_cases hmem : i * 8 + m ∈ s
      · have hlt := h.inside _ hmem
        rw [if_pos (hbit.mpr hmem), getLsbD_or_one_shiftLeft (by omega), hih, Bool.or_assoc]
        congr 1
        grind
      · rw [if_neg fun hset => hmem (hbit.mp hset), hih]
        congr 1
        grind

theorem Refines.toBitset (h : Refines v s) {n : Nat} (hn : kBits ≤ n) (q : Nat) :
    (v.toBitset n).getLsbD q = decide (q ∈ s) := by
  have hloop : ∀ k, ((List.range k).foldl (fun result i => v.bitsetByte i 8 result) 0#n).getLsbD q =
      decide (q < k * 8 ∧ q ∈ s) := by
    intro k
    induction k with
    | zero => simp
    | succ k ih =>
        rw [List.range_succ, List.foldl_append, List.foldl_cons, List.foldl_nil,
          h.bitsetByte hn k _ q (Nat.le_refl 8), ih]
        grind
  unfold TBitVector.toBitset
  rw [show (0 : BitVec n) = 0#n from rfl, hloop, decide_eq_decide]
  refine ⟨And.right, fun hq => ⟨?_, hq⟩⟩
  have hlt := h.inside q hq
  unfold kWords
  omega

end TBitVector

/-! ## Constructions -/

/-- How a bit vector is made: by the default constructor and operations on vectors that are made
in the same way. -/
inductive Construction where
  | new
  | set (c : Construction) (pos : Nat)
  | reset (c : Construction) (pos : Nat)
  | flip (c : Construction) (pos : Nat)
  | setAll (c : Construction)
  | clearAll (c : Construction)
  | setBits (c : Construction) (w : Nat) (value : BitVec w) (offset bitNum : Nat)
  | clearBits (c : Construction) (offset bitNum : Nat)
  | setBatch (c : Construction) (start count : Nat)
  | clearBatch (c : Construction) (start count : Nat)
  | and (c other : Construction)
  | or (c other : Construction)
  | xor (c other : Construction)
  | not (c : Construction)

namespace Construction

/-- The vector. -/
def run (kBits : Nat) : Construction → TBitVector kBits
  | new => .new kBits
  | set c pos => (c.run kBits).set pos
  | reset c pos => (c.run kBits).reset pos
  | flip c pos => (c.run kBits).flip pos
  | setAll c => (c.run kBits).setAll
  | clearAll c => (c.run kBits).clearAll
  | setBits c _ value offset bitNum => (c.run kBits).setBits value offset bitNum
  | clearBits c offset bitNum => (c.run kBits).clearBits offset bitNum
  | setBatch c start count => (c.run kBits).setBatch start count
  | clearBatch c start count => (c.run kBits).clearBatch start count
  | and c other => (c.run kBits).and (other.run kBits)
  | or c other => (c.run kBits).or (other.run kBits)
  | xor c other => (c.run kBits).xor (other.run kBits)
  | not c => (c.run kBits).not

/-- The same operations on sets of positions. -/
def positions (kBits : Nat) : Construction → Finset Nat
  | new => ∅
  | set c pos => insert pos (c.positions kBits)
  | reset c pos => (c.positions kBits).erase pos
  | flip c pos => symmDiff (c.positions kBits) {pos}
  | setAll _ => Finset.range kBits
  | clearAll _ => ∅
  | setBits c _ value offset bitNum => c.positions kBits \ Finset.Ico offset (offset + bitNum) ∪
      ((Finset.range bitNum).filter (value.getLsbD ·)).image (offset + ·)
  | clearBits c offset bitNum => c.positions kBits \ Finset.Ico offset (offset + bitNum)
  | setBatch c start count =>
      c.positions kBits ∪ Finset.Ico start (start + count) ∩ Finset.range kBits
  | clearBatch c start count => c.positions kBits \ Finset.Ico start (start + count)
  | and c other => c.positions kBits ∩ other.positions kBits
  | or c other => c.positions kBits ∪ other.positions kBits
  | xor c other => symmDiff (c.positions kBits) (other.positions kBits)
  | not c => Finset.range kBits \ c.positions kBits

/-- Positions are below `kBits`, ranges end there, and `start + count` does not wrap. -/
def InRange (kBits : Nat) : Construction → Prop
  | new => True
  | set c pos | reset c pos | flip c pos => c.InRange kBits ∧ pos < kBits
  | setAll c | clearAll c | not c => c.InRange kBits
  | setBits c _ _ offset bitNum | clearBits c offset bitNum =>
      c.InRange kBits ∧ offset + bitNum ≤ kBits
  | setBatch c start count | clearBatch c start count =>
      c.InRange kBits ∧ start + count < 2 ^ 64
  | and c other | or c other | xor c other => c.InRange kBits ∧ other.InRange kBits

/-- Every construction keeps to its set of positions. -/
theorem refines {kBits : Nat} (c : Construction) (h : c.InRange kBits) :
    (c.run kBits).Refines (c.positions kBits) := by
  induction c with
  | new => exact TBitVector.refines_clearAll (v := .new kBits)
  | set c pos ih => exact (ih h.1).set h.2
  | reset c pos ih => exact (ih h.1).reset h.2
  | flip c pos ih => exact (ih h.1).flip h.2
  | setAll c ih => exact TBitVector.refines_setAll
  | clearAll c ih => exact TBitVector.refines_clearAll
  | setBits c w value offset bitNum ih => exact (ih h.1).setBits value h.2
  | clearBits c offset bitNum ih => exact (ih h.1).clearBits h.2
  | setBatch c start count ih => exact (ih h.1).setBatch start count
  | clearBatch c start count ih => exact (ih h.1).clearBatch start count
  | and c other ih ih' => exact (ih h.1).and (ih' h.2)
  | or c other ih ih' => exact (ih h.1).or (ih' h.2)
  | xor c other ih ih' => exact (ih h.1).xor (ih' h.2)
  | not c ih => exact (ih h).not

end Construction

/-- The padding of the vector is zero and its queries answer for the set. -/
structure Agrees {kBits : Nat} (v : TBitVector kBits) (s : Finset Nat) : Prop where
  padding : ∀ j < 8, kBits ≤ (kWords kBits - 1) * 8 + j →
    (v.byte (kWords kBits - 1)).getLsbD j = false
  test : ∀ p < kBits, v.test p = decide (p ∈ s)
  count : v.count = s.card
  none : v.none = decide (s = ∅)
  any : v.any = decide s.Nonempty
  all : v.all = decide (s = Finset.range kBits)
  findFirst : IsFirst kBits (· ∈ s) v.findFirst
  findNext : ∀ p, IsFirst kBits (fun q => p ≤ q ∧ q ∈ s) (v.findNext p)
  findFirstZero : IsFirst kBits (· ∉ s) v.findFirstZero
  toBitset : ∀ n, kBits ≤ n → ∀ q, (v.toBitset n).getLsbD q = decide (q ∈ s)

end Utilpp.Bits
