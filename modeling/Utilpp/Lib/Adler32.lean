import Mathlib.Algebra.BigOperators.Group.List.Basic
import Mathlib.Data.Int.ModEq
import Mathlib.Tactic.Ring

/-!
# The Adler-32 checksum

The two components of the checksum are sums modulo `base`. A component that is not reduced is
congruent to a sum of the bytes: the first to the sum of the bytes and the second to the sum in
which each byte counts as often as there are bytes from it on (`components_modEq`). Sliding the
window over which the components are taken by one byte changes them by what `slide_modEq` says.
-/

namespace Utilpp.Lib.Adler32

/-- The largest prime below `2 ^ 16`. -/
def base : Nat := 65521

/-- Adding a byte to the components. -/
def update (c : Nat × Nat) (byte : UInt8) : Nat × Nat :=
  ((c.1 + byte.toNat) % base, (c.2 + (c.1 + byte.toNat) % base) % base)

/-- The components of a checksum that goes on with `data`. -/
def continued (c : Nat × Nat) (data : List UInt8) : Nat × Nat := data.foldl update c

/-- The components of `data`. -/
def components (data : List UInt8) : Nat × Nat := continued (1, 0) data

/-- The components in one number of 32 bits. -/
def combined (c : Nat × Nat) : UInt32 := UInt32.ofNat (c.2 * 2 ^ 16 + c.1)

/-- The sum of the bytes. -/
def total (data : List UInt8) : Nat := (data.map UInt8.toNat).sum

/-- The sum in which each byte counts as often as there are bytes from it on. -/
def weighted : List UInt8 → Nat
  | [] => 0
  | byte :: data => (data.length + 1) * byte.toNat + weighted data

variable {c : Nat × Nat} {data : List UInt8}

@[simp] theorem total_cons (byte : UInt8) (data : List UInt8) :
    total (byte :: data) = byte.toNat + total data := List.sum_cons

@[simp] theorem total_concat (data : List UInt8) (byte : UInt8) :
    total (data ++ [byte]) = total data + byte.toNat := by
  rw [total, List.map_append, List.sum_append, List.map_singleton, List.sum_singleton]
  rfl

theorem weighted_cons (byte : UInt8) (data : List UInt8) :
    weighted (byte :: data) = (data.length + 1) * byte.toNat + weighted data := rfl

theorem weighted_concat (data : List UInt8) (byte : UInt8) :
    weighted (data ++ [byte]) = weighted data + total data + byte.toNat := by
  induction data with
  | nil =>
      show (0 + 1) * byte.toNat + 0 = 0 + 0 + byte.toNat
      omega
  | cons first data ih =>
      rw [List.cons_append, weighted_cons, ih, weighted_cons, total_cons, List.length_append,
        List.length_singleton]
      ring

theorem update_lt (c : Nat × Nat) (byte : UInt8) :
    (update c byte).1 < base ∧ (update c byte).2 < base :=
  ⟨Nat.mod_lt _ (by decide), Nat.mod_lt _ (by decide)⟩

theorem continued_lt (h : c.1 < base ∧ c.2 < base) (data : List UInt8) :
    (continued c data).1 < base ∧ (continued c data).2 < base := by
  induction data generalizing c with
  | nil => exact h
  | cons byte data ih => exact ih (update_lt c byte)

theorem components_lt (data : List UInt8) :
    (components data).1 < base ∧ (components data).2 < base :=
  continued_lt (by decide) data

theorem continued_modEq (c : Nat × Nat) (data : List UInt8) :
    (continued c data).1 ≡ c.1 + total data [MOD base] ∧
      (continued c data).2 ≡ c.2 + data.length * c.1 + weighted data [MOD base] := by
  induction data generalizing c with
  | nil =>
      refine ⟨Nat.ModEq.refl _, ?_⟩
      rw [List.length_nil, Nat.zero_mul]
      exact Nat.ModEq.refl _
  | cons byte data ih =>
      obtain ⟨hfirst, hsecond⟩ := ih (update c byte)
      have hs1 : (update c byte).1 ≡ c.1 + byte.toNat [MOD base] := Nat.mod_modEq _ _
      have hs2 : (update c byte).2 ≡ c.2 + (c.1 + byte.toNat) [MOD base] :=
        (Nat.mod_modEq _ _).trans ((Nat.ModEq.refl _).add hs1)
      constructor
      · refine hfirst.trans ((hs1.add_right _).trans ?_)
        rw [total_cons, Nat.add_assoc]
      · rw [weighted_cons, List.length_cons]
        calc (continued (update c byte) data).2
            ≡ (update c byte).2 + data.length * (update c byte).1 + weighted data [MOD base] :=
              hsecond
          _ ≡ c.2 + (c.1 + byte.toNat) + data.length * (c.1 + byte.toNat) + weighted data
              [MOD base] := (hs2.add (hs1.mul_left _)).add_right _
          _ = c.2 + (data.length + 1) * c.1 + ((data.length + 1) * byte.toNat + weighted data) := by
              ring

/-- The components as sums of the bytes. -/
theorem components_modEq (data : List UInt8) :
    (components data).1 ≡ 1 + total data [MOD base] ∧
      (components data).2 ≡ data.length + weighted data [MOD base] := by
  have h := continued_modEq (1, 0) data
  rwa [Nat.mul_one, Nat.zero_add] at h

/-- How the components change when the window moves on by one byte. -/
theorem slide_modEq (outByte newByte : UInt8) (window : List UInt8) :
    (components (window ++ [newByte])).1 + outByte.toNat ≡
        (components (outByte :: window)).1 + newByte.toNat [MOD base] ∧
      (components (window ++ [newByte])).2 + (window.length + 1) * outByte.toNat + 1 ≡
        (components (outByte :: window)).2 + (components (window ++ [newByte])).1 [MOD base] := by
  obtain ⟨hfirst, hsecond⟩ := components_modEq (window ++ [newByte])
  obtain ⟨hfirst', hsecond'⟩ := components_modEq (outByte :: window)
  rw [total_concat] at hfirst
  rw [weighted_concat, List.length_append, List.length_singleton] at hsecond
  rw [total_cons] at hfirst'
  rw [weighted_cons, List.length_cons] at hsecond'
  constructor
  · calc (components (window ++ [newByte])).1 + outByte.toNat
        ≡ 1 + (total window + newByte.toNat) + outByte.toNat [MOD base] := hfirst.add_right _
      _ = 1 + (outByte.toNat + total window) + newByte.toNat := by ring
      _ ≡ (components (outByte :: window)).1 + newByte.toNat [MOD base] :=
          (hfirst'.add_right _).symm
  · calc (components (window ++ [newByte])).2 + (window.length + 1) * outByte.toNat + 1
        ≡ window.length + 1 + (weighted window + total window + newByte.toNat) +
            (window.length + 1) * outByte.toNat + 1 [MOD base] :=
          (hsecond.add_right _).add_right _
      _ = window.length + 1 + ((window.length + 1) * outByte.toNat + weighted window) +
            (1 + (total window + newByte.toNat)) := by ring
      _ ≡ (components (outByte :: window)).2 + (components (window ++ [newByte])).1 [MOD base] :=
          (hsecond'.add hfirst).symm

end Utilpp.Lib.Adler32
