import Utilpp.Bits.Refinement

/-!
# Fields of a bit vector

A field is a range of bits that `SetBits` writes and `GetBits` reads. Read as a number it is cut
out of the number of the whole row (`Field.read`). `bit_field_access` says what the two calls do
to each other for every alignment, width and type of the argument; the encodings of the Steam
ids use the rules about `Field.read`.
-/

namespace Utilpp.Bits

open Lib

namespace TBitVector

variable {kBits : Nat}

theorem eq_of_bitAt {v v' : TBitVector kBits} (h : ∀ q, bitAt v.data q = bitAt v'.data q) :
    v = v' := by
  have hdata := eq_of_bitAt_eq (v.length_data.trans v'.length_data.symm) h
  cases v
  cases v'
  cases hdata
  rfl

/-- The loop of `GetBits`. -/
theorem getLsbD_getLoop (v : TBitVector kBits) (offset : Nat) {n : Nat} (hn : n ≤ 64) (j : Nat) :
    ((List.range n).foldl (fun result i =>
      if v.test (offset + i) then result ||| 1#64 <<< i else result) 0#64).getLsbD j =
      (decide (j < n) && bitAt v.data (offset + j)) := by
  induction n with
  | zero => simp
  | succ n ih =>
      rw [List.range_succ, List.foldl_append, List.foldl_cons, List.foldl_nil]
      have hih := ih (by omega)
      by_cases hbit : bitAt v.data (offset + n) = true
      · rw [if_pos ((v.test_eq _).trans hbit), getLsbD_or_one_shiftLeft (by omega), hih]
        grind
      · rw [if_neg fun htest => hbit ((v.test_eq _).symm.trans htest), hih]
        grind

/-- `GetBits` reads the bits of the range in order. -/
theorem getLsbD_getBits (v : TBitVector kBits) {w offset bitNum : Nat} (h : bitNum ≤ min 64 w)
    (j : Nat) :
    (v.getBits w offset bitNum).getLsbD j =
      (decide (j < bitNum) && bitAt v.data (offset + j)) := by
  unfold getBits
  split
  · subst bitNum
    simp
  · rw [BitVec.getLsbD_setWidth, v.getLsbD_getLoop offset (by omega)]
    by_cases hj : j < bitNum
    · have hjw : j < w := by omega
      rw [decide_eq_true hjw, Bool.true_and]
    · rw [decide_eq_false hj, Bool.false_and, Bool.and_false]

end TBitVector

/-- A new vector has no set bit. -/
theorem TBitVector.bitAt_new (kBits q : Nat) : bitAt (TBitVector.new kBits).data q = false := by
  unfold TBitVector.new
  rw [TBitVector.bitAt_fill]
  simp

/-! ## Fields as numbers -/

/-- A range of the bits of a vector. -/
structure Field (kBits : Nat) where
  offset : Nat
  length : Nat
  inside : offset + length ≤ kBits

namespace Field

variable {kBits : Nat}

/-- The number in the field. -/
def read (f : Field kBits) (v : TBitVector kBits) : Nat :=
  rowNumber v.data / 2 ^ f.offset % 2 ^ f.length

/-- The bits of the number. -/
theorem testBit_read (f : Field kBits) (v : TBitVector kBits) (j : Nat) :
    (f.read v).testBit j = (decide (j < f.length) && bitAt v.data (f.offset + j)) := by
  unfold read
  rw [Nat.testBit_mod_two_pow, Nat.testBit_div_two_pow, testBit_rowNumber _ (by omega),
    Nat.add_comm j]

theorem read_lt (f : Field kBits) (v : TBitVector kBits) : f.read v < 2 ^ f.length :=
  Nat.mod_lt _ (Nat.two_pow_pos _)

theorem toNat_getBits (f : Field kBits) (v : TBitVector kBits) {w : Nat}
    (h : f.length ≤ min 64 w) : (v.getBits w f.offset f.length).toNat = f.read v := by
  refine Nat.eq_of_testBit_eq fun j => ?_
  rw [BitVec.testBit_toNat, v.getLsbD_getBits h, f.testBit_read]

/-- A part of a field that is written. -/
theorem read_setBits_of_le (f g : Field kBits) (v : TBitVector kBits) {w : Nat}
    (value : BitVec w) (hlow : g.offset ≤ f.offset)
    (hhigh : f.offset + f.length ≤ g.offset + g.length) :
    f.read (v.setBits value g.offset g.length) =
      value.toNat / 2 ^ (f.offset - g.offset) % 2 ^ f.length := by
  refine Nat.eq_of_testBit_eq fun j => ?_
  rw [f.testBit_read, Nat.testBit_mod_two_pow, Nat.testBit_div_two_pow, BitVec.testBit_toNat]
  by_cases hj : j < f.length
  · have hpos : f.offset + j - g.offset = j + (f.offset - g.offset) := by omega
    rw [v.bitAt_setBits value g.inside, if_pos (by omega), hpos]
  · rw [decide_eq_false hj, Bool.false_and, Bool.false_and]

theorem read_setBits_same (f : Field kBits) (v : TBitVector kBits) {w : Nat} (value : BitVec w) :
    f.read (v.setBits value f.offset f.length) = value.toNat % 2 ^ f.length := by
  rw [f.read_setBits_of_le f v value (Nat.le_refl _) (Nat.le_refl _), Nat.sub_self, Nat.pow_zero,
    Nat.div_one]

/-- The ranges have no position in common. -/
def Disjoint (f g : Field kBits) : Prop :=
  f.offset + f.length ≤ g.offset ∨ g.offset + g.length ≤ f.offset

instance (f g : Field kBits) : Decidable (f.Disjoint g) :=
  inferInstanceAs (Decidable (_ ∨ _))

/-- A write to another field. -/
theorem read_setBits_disjoint {f g : Field kBits} (h : f.Disjoint g) (v : TBitVector kBits)
    {w : Nat} (value : BitVec w) : f.read (v.setBits value g.offset g.length) = f.read v := by
  refine Nat.eq_of_testBit_eq fun j => ?_
  rw [f.testBit_read, f.testBit_read]
  by_cases hj : j < f.length
  · rcases h with hbefore | hbehind
    · rw [v.bitAt_setBits value g.inside, if_neg (by omega)]
    · rw [v.bitAt_setBits value g.inside, if_neg (by omega)]
  · rw [decide_eq_false hj, Bool.false_and, Bool.false_and]

end Field

/-- The assertions hold for a field. -/
theorem Field.checkedSetBits {kBits w : Nat} (f : Field kBits) (v : TBitVector kBits)
    (value : BitVec w) :
    v.checkedSetBits value f.offset f.length = some (v.setBits value f.offset f.length) :=
  if_pos (.inr f.inside)

theorem Field.checkedGetBits {kBits : Nat} (f : Field kBits) (v : TBitVector kBits) (w : Nat) :
    v.checkedGetBits w f.offset f.length = some (v.getBits w f.offset f.length) :=
  if_pos (.inr f.inside)

theorem Field.map_checkedGetBits {kBits : Nat} (f : Field kBits) (v : TBitVector kBits) {w : Nat}
    (h : f.length ≤ min 64 w) :
    (v.checkedGetBits w f.offset f.length).map BitVec.toNat = some (f.read v) := by
  rw [f.checkedGetBits, Option.map_some, f.toNat_getBits v h]

/-- A new vector has zeros in every field. -/
theorem Field.read_new {kBits : Nat} (f : Field kBits) : f.read (.new kBits) = 0 := by
  refine Nat.eq_of_testBit_eq fun j => ?_
  rw [f.testBit_read, TBitVector.bitAt_new, Bool.and_false, Nat.zero_testBit]

/-! ## Access -/

/-- What the accesses to the field of `n` bits at `offset` do with a value of `w` bits. -/
structure FieldAccess {kBits w : Nat} (v : TBitVector kBits) (value : BitVec w)
    (offset n : Nat) : Prop where
  get_set : ((v.setBits value offset n).getBits w offset n).toNat = value.toNat % 2 ^ n
  outside : ∀ q, ¬ (offset ≤ q ∧ q < offset + n) → (v.setBits value offset n).test q = v.test q
  set_get : v.setBits (v.getBits w offset n) offset n = v
  commute : ∀ (w' : Nat) (value' : BitVec w') (offset' n' : Nat), n' ≤ min 64 w' →
    offset' + n' ≤ kBits → offset + n ≤ offset' ∨ offset' + n' ≤ offset →
      (v.setBits value offset n).setBits value' offset' n' =
        (v.setBits value' offset' n').setBits value offset n

/-- In a field of every vector, `GetBits` returns what `SetBits` wrote modulo the width, the bits
outside stay, writing back what was read changes nothing, and writes to disjoint fields
commute. -/
theorem bit_field_access {kBits w : Nat} (v : TBitVector kBits) (value : BitVec w)
    (offset n : Nat) (hn : n ≤ min 64 w) (hinside : offset + n ≤ kBits) :
    FieldAccess v value offset n where
  get_set := by
    rw [Field.toNat_getBits ⟨offset, n, hinside⟩ _ hn,
      Field.read_setBits_same ⟨offset, n, hinside⟩]
  outside := by
    intro q hq
    rw [TBitVector.test_eq, TBitVector.test_eq, v.bitAt_setBits value hinside, if_neg hq]
  set_get := by
    refine TBitVector.eq_of_bitAt fun q => ?_
    rw [v.bitAt_setBits _ hinside]
    split
    · rename_i hq
      have hbelow : q - offset < n := by omega
      rw [v.getLsbD_getBits hn, decide_eq_true hbelow, Bool.true_and,
        Nat.add_sub_cancel' hq.1]
    · rfl
  commute := by
    intro w' value' offset' n' _ hinside' hdisjoint
    refine TBitVector.eq_of_bitAt fun q => ?_
    rw [TBitVector.bitAt_setBits _ _ hinside', TBitVector.bitAt_setBits _ _ hinside,
      TBitVector.bitAt_setBits _ _ hinside, TBitVector.bitAt_setBits _ _ hinside']
    grind

/-- Nine bits of the twelve at position 3, from a value of sixteen. -/
theorem bit_field_access_nine :
    FieldAccess (TBitVector.new 12) 0xabcd#16 3 9 ∧
      ((TBitVector.new 12).setBits 0xabcd#16 3 9).getBits 16 3 9 = 0x1cd#16 :=
  ⟨bit_field_access (TBitVector.new 12) 0xabcd#16 3 9 (by omega) (by omega), by decide⟩

/-! ## The constructor that takes an integer -/

theorem TBitVector.bitAt_ofInteger {kBits : Nat} (h : kBits ≤ 64) (value : BitVec 64) (q : Nat) :
    bitAt (ofInteger kBits value).data q = (decide (q < kBits) && value.getLsbD q) := by
  have hinside : 0 + min kBits 64 ≤ kBits := by omega
  have hloop := bitAt_setLoop (.new kBits) value hinside q
  simp only [Nat.zero_add, Nat.zero_le, true_and, Nat.sub_zero, bitAt_new, Bool.false_or] at hloop
  unfold ofInteger
  rw [if_pos h, hloop, Nat.min_eq_left h]

/-- The vector has the low bits of the value, and `GetBits` returns them. -/
structure HasInteger {kBits : Nat} (v : TBitVector kBits) (value : BitVec 64) : Prop where
  bits : ∀ i < kBits, v.test i = true ↔ i < min kBits 64 ∧ value.getLsbD i = true
  get : (v.getBits 64 0 (min kBits 64)).toNat = value.toNat % 2 ^ min kBits 64

/-- The bits and the number say the same. -/
theorem hasInteger_of_bitAt {kBits : Nat} {v : TBitVector kBits} {value : BitVec 64}
    (h : ∀ q < min kBits 64, bitAt v.data q = value.getLsbD q)
    (hrest : ∀ q < kBits, 64 ≤ q → bitAt v.data q = false) : HasInteger v value where
  bits := by
    intro i hi
    rw [TBitVector.test_eq]
    by_cases hlow : i < min kBits 64
    · rw [h i hlow]
      exact ⟨fun hbit => ⟨hlow, hbit⟩, And.right⟩
    · rw [hrest i hi (by omega)]
      exact ⟨fun hbit => Bool.noConfusion hbit, fun hbit => absurd hbit.1 hlow⟩
  get := by
    refine Nat.eq_of_testBit_eq fun j => ?_
    rw [BitVec.testBit_toNat, v.getLsbD_getBits (by omega), Nat.testBit_mod_two_pow,
      BitVec.testBit_toNat, Nat.zero_add]
    by_cases hj : j < min kBits 64
    · rw [h j hj]
    · rw [decide_eq_false hj, Bool.false_and, Bool.false_and]

/-- A vector made from an integer has its bits exactly when it is not wider than the integer, or
the integer is zero: the guard of the loop leaves a wider vector empty. -/
theorem integer_construction (kBits : Nat) (value : BitVec 64) :
    HasInteger (TBitVector.ofInteger kBits value) value ↔ kBits ≤ 64 ∨ value = 0 := by
  constructor
  · intro h
    by_contra hnot
    rw [not_or] at hnot
    have hempty : TBitVector.ofInteger kBits value = .new kBits := if_neg hnot.1
    refine hnot.2 (BitVec.eq_of_getLsbD_eq fun i hi => ?_)
    have hbit := h.bits i (by omega)
    rw [hempty, TBitVector.test_eq, TBitVector.bitAt_new] at hbit
    rw [Bool.eq_false_iff.mpr fun hset => Bool.noConfusion (hbit.mpr ⟨by omega, hset⟩)]
    simp
  · intro h
    by_cases hle : kBits ≤ 64
    · refine hasInteger_of_bitAt (fun q hq => ?_) fun q hq hlarge => by omega
      rw [TBitVector.bitAt_ofInteger hle, decide_eq_true (by omega), Bool.true_and]
    · have hempty : TBitVector.ofInteger kBits value = .new kBits := if_neg hle
      obtain rfl := h.resolve_left hle
      rw [hempty]
      refine hasInteger_of_bitAt (fun q _ => ?_) fun q _ _ => TBitVector.bitAt_new kBits q
      rw [TBitVector.bitAt_new]
      simp

/-- Sixty-five bits do not keep the number one. -/
theorem not_integer_construction :
    ¬ ∀ (kBits : Nat) (value : BitVec 64), 0 < kBits →
      HasInteger (TBitVector.ofInteger kBits value) value := by
  intro h
  have hbit := (h 65 1 (by omega)).bits 0 (by omega)
  revert hbit
  decide

end Utilpp.Bits
