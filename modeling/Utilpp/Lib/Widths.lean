import Mathlib.Algebra.Ring.Nat
import Mathlib.Algebra.Ring.Int.Defs

/-!
# Conversions between machine integers

Conversions and sums that keep their value because it fits the width.
-/

namespace Utilpp.Lib

theorem toInt_toInt64 {x : UInt64} (h : x.toNat < 2 ^ 63) : x.toInt64.toInt = x.toNat :=
  BitVec.toInt_eq_toNat_of_lt (show 2 * x.toNat < 2 ^ 64 by omega)

theorem toInt_toInt32 {x : UInt32} (h : x.toNat < 2 ^ 31) : x.toInt32.toInt = x.toNat :=
  BitVec.toInt_eq_toNat_of_lt (show 2 * x.toNat < 2 ^ 32 by omega)

theorem toNat_toUInt64 {x : Int64} {n : Nat} (h : x.toInt = n) : x.toUInt64.toNat = n := by
  have hle : 0 ≤ x := Int64.le_iff_toInt_le.mpr (by rw [h]; exact Int.natCast_nonneg n)
  rw [Int64.toNat_toUInt64_of_le hle, ← Int64.toNat_toInt, h]
  rfl

theorem toNat_toUInt32 {x : Int32} {n : Nat} (h : x.toInt = n) : x.toUInt32.toNat = n := by
  have hle : 0 ≤ x := Int32.le_iff_toInt_le.mpr (by rw [h]; exact Int.natCast_nonneg n)
  rw [Int32.toNat_toUInt32_of_le hle, ← Int32.toNat_toInt, h]
  rfl

theorem bmod64 {n : Int} (h : -(2 ^ 63) ≤ n ∧ n < 2 ^ 63) : n.bmod (2 ^ 64) = n :=
  Int.bmod_eq_of_le (by omega) (by omega)

theorem bmod32 {n : Int} (h : -(2 ^ 31) ≤ n ∧ n < 2 ^ 31) : n.bmod (2 ^ 32) = n :=
  Int.bmod_eq_of_le (by omega) (by omega)

theorem bmod_natCast_le (n m : Nat) : (n : Int).bmod m ≤ n := by
  have hmod : (n : Int) % m ≤ n := by
    rw [← Int.natCast_emod]
    exact_mod_cast Nat.mod_le n m
  rw [Int.bmod_def]
  split
  · exact hmod
  · omega

/-- A conversion that does not make a number negative keeps it. -/
theorem bmod_natCast_of_pos {n m : Nat} (hlt : n < m) (hpos : 0 < (n : Int).bmod m) :
    (n : Int).bmod m = n := by
  have hmod : (n : Int) % m = n := Int.emod_eq_of_lt (Int.natCast_nonneg n) (by omega)
  rw [Int.bmod_def, hmod] at hpos ⊢
  split
  · rfl
  · rename_i hhigh
    rw [if_neg hhigh] at hpos
    omega

end Utilpp.Lib
