import Mathlib.Data.BitVec

/-!
# Reflected cyclic redundancy checks

The remainder of a reflected check is shifted towards its lowest bit, and the bits of a byte go in
lowest first. `remainder` divides bit by bit. The division is linear in exclusive or, so that what
it does with a byte is one look-up, of what eight steps make of the low byte of the remainder
(`remainder_concat`).
-/

namespace Utilpp.Lib.Crc

variable {w : Nat} (poly : BitVec w)

/-- The remainder after one more bit of the message. -/
def feed (crc : BitVec w) (bit : Bool) : BitVec w :=
  if crc.getLsbD 0 ^^ bit then (crc >>> 1) ^^^ poly else crc >>> 1

/-- The bits of a byte in the order in which they go in. -/
def byteBits (b : BitVec 8) : List Bool := (List.range 8).map b.getLsbD

/-- The remainder after a message, bit by bit. -/
def remainder (crc : BitVec w) (bytes : List (BitVec 8)) : BitVec w :=
  (bytes.flatMap byteBits).foldl (feed poly) crc

/-- The remainder after `n` bits that are zero. -/
def bits : Nat → BitVec w → BitVec w
  | 0, crc => crc
  | n + 1, crc => bits n (feed poly crc false)

variable {poly}

/-- A bit goes in at the lowest place of the remainder. -/
theorem feed_xor (crc x : BitVec w) :
    feed poly (crc ^^^ x) false = feed poly crc (x.getLsbD 0) ^^^ (x >>> 1) := by
  unfold feed
  rw [Bool.xor_false, BitVec.getLsbD_xor, BitVec.ushiftRight_xor_distrib]
  split
  · rw [BitVec.xor_assoc, BitVec.xor_comm (x >>> 1), ← BitVec.xor_assoc]
  · rfl

/-- The places above the ones that have gone in move down. -/
theorem bits_xor_eq (n : Nat) (crc x : BitVec w) :
    bits poly n (crc ^^^ x) =
      ((List.range n).map x.getLsbD).foldl (feed poly) crc ^^^ (x >>> n) := by
  induction n generalizing crc x with
  | zero => rw [bits, List.range_zero, List.map_nil, List.foldl_nil, BitVec.ushiftRight_zero]
  | succ n ih =>
      have hplaces : (List.range n).map (x >>> 1).getLsbD =
          (List.range n).map fun i => x.getLsbD (i + 1) :=
        List.map_congr_left fun i _ => by rw [BitVec.getLsbD_ushiftRight, Nat.add_comm 1 i]
      rw [bits, feed_xor, ih, hplaces, List.range_succ_eq_map, List.map_cons, List.map_map,
        List.foldl_cons, ← BitVec.shiftRight_add, Nat.add_comm 1 n]
      rfl

/-- The division is linear. -/
theorem bits_xor (n : Nat) (x y : BitVec w) :
    bits poly n (x ^^^ y) = bits poly n x ^^^ bits poly n y := by
  induction n generalizing x y with
  | zero => rfl
  | succ n ih =>
      have hfeed : feed poly (x ^^^ y) false = feed poly x false ^^^ feed poly y false := by
        simp only [feed, Bool.xor_false, BitVec.getLsbD_xor, BitVec.ushiftRight_xor_distrib]
        cases x.getLsbD 0 <;> cases y.getLsbD 0 <;> simp only [Bool.xor_true, Bool.xor_false,
          Bool.not_true, Bool.not_false, Bool.false_eq_true, if_true, if_false]
        · rw [BitVec.xor_assoc]
        · rw [BitVec.xor_assoc, BitVec.xor_assoc, BitVec.xor_comm poly]
        · rw [BitVec.xor_assoc (x >>> 1), BitVec.xor_comm (y >>> 1) poly, ← BitVec.xor_assoc poly,
            BitVec.xor_self, BitVec.zero_xor]
      rw [bits, hfeed, ih, bits, bits]

/-- A remainder whose lowest places are zero only moves down. -/
theorem bits_of_clear (n : Nat) {x : BitVec w} (hx : ∀ i < n, x.getLsbD i = false) :
    bits poly n x = x >>> n := by
  induction n generalizing x with
  | zero => rw [bits, BitVec.ushiftRight_zero]
  | succ n ih =>
      have hfeed : feed poly x false = x >>> 1 := by
        rw [feed, hx 0 n.succ_pos, Bool.xor_false, if_neg Bool.false_ne_true]
      rw [bits, hfeed, ih, ← BitVec.shiftRight_add, Nat.add_comm 1 n]
      intro i hi
      rw [BitVec.getLsbD_ushiftRight]
      exact hx (1 + i) (by omega)

theorem setWidth_shiftRight_eight (b : BitVec 8) : b.setWidth w >>> 8 = 0#w := by
  apply BitVec.eq_of_getLsbD_eq
  intro i _
  rw [BitVec.getLsbD_ushiftRight, BitVec.getLsbD_setWidth, BitVec.getLsbD_of_ge b _ (by omega),
    Bool.and_false, BitVec.getLsbD_zero]

/-- The bits of a byte go in together. -/
theorem foldl_byteBits (hw : 8 ≤ w) (crc : BitVec w) (b : BitVec 8) :
    (byteBits b).foldl (feed poly) crc = bits poly 8 (crc ^^^ b.setWidth w) := by
  have hplaces : (List.range 8).map (b.setWidth w).getLsbD = byteBits b :=
    List.map_congr_left fun i hi => by
      have hlt : i < w := Nat.lt_of_lt_of_le (List.mem_range.mp hi) hw
      rw [BitVec.getLsbD_setWidth, decide_eq_true hlt, Bool.true_and]
  rw [bits_xor_eq, hplaces, setWidth_shiftRight_eight, BitVec.xor_zero]

/-! ## A byte at a time -/

theorem getLsbD_lowByte (x : BitVec w) (i : Nat) :
    (x &&& 255#w).getLsbD i = (x.getLsbD i && decide (i < 8)) := by
  have hmask : Nat.testBit 255 i = decide (i < 8) := Nat.testBit_two_pow_sub_one 8 i
  rw [BitVec.getLsbD_and, BitVec.getLsbD_ofNat, hmask]
  by_cases hi : i < w
  · rw [decide_eq_true hi, Bool.true_and]
  · rw [BitVec.getLsbD_of_ge x i (by omega), Bool.false_and, Bool.false_and]

/-- Eight steps are a look-up for the low byte and a shift of the rest. -/
theorem bits_eight (x : BitVec w) : bits poly 8 x = (x >>> 8) ^^^ bits poly 8 (x &&& 255#w) := by
  have hlow : ∀ i, (x ^^^ (x &&& 255#w)).getLsbD i = (x.getLsbD i && !decide (i < 8)) := by
    intro i
    rw [BitVec.getLsbD_xor, getLsbD_lowByte]
    cases x.getLsbD i <;> cases decide (i < 8) <;> rfl
  have hhigh : (x ^^^ (x &&& 255#w)) >>> 8 = x >>> 8 := by
    apply BitVec.eq_of_getLsbD_eq
    intro i _
    rw [BitVec.getLsbD_ushiftRight, hlow, BitVec.getLsbD_ushiftRight,
      decide_eq_false (Nat.not_lt.mpr (Nat.le_add_right 8 i)), Bool.not_false, Bool.and_true]
  have hclear : ∀ i < 8, (x ^^^ (x &&& 255#w)).getLsbD i = false := by
    intro i hi
    rw [hlow, decide_eq_true hi, Bool.not_true, Bool.and_false]
  calc bits poly 8 x
      = bits poly 8 ((x ^^^ (x &&& 255#w)) ^^^ (x &&& 255#w)) := by
        rw [BitVec.xor_assoc, BitVec.xor_self, BitVec.xor_zero]
    _ = (x >>> 8) ^^^ bits poly 8 (x &&& 255#w) := by
        rw [bits_xor, bits_of_clear 8 hclear, hhigh]

/-- What the division does with a byte, as a table does it: the table has at `i` what eight steps
make of `i`. -/
theorem remainder_concat (hw : 8 ≤ w) (crc : BitVec w) (bytes : List (BitVec 8)) (b : BitVec 8) :
    remainder poly crc (bytes ++ [b]) =
      (remainder poly crc bytes >>> 8) ^^^
        bits poly 8 ((remainder poly crc bytes ^^^ b.setWidth w) &&& 255#w) := by
  rw [remainder, List.flatMap_append, List.foldl_append, List.flatMap_singleton,
    foldl_byteBits hw, bits_eight, BitVec.ushiftRight_xor_distrib, setWidth_shiftRight_eight,
    BitVec.xor_zero]
  rfl

end Utilpp.Lib.Crc
