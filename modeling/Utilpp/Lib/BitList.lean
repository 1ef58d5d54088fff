import Mathlib.Algebra.BigOperators.Group.List.Basic
import Mathlib.Algebra.Ring.Nat
import Mathlib.Data.List.GetD

/-!
# Bits of a list of words

A list of words of `w` bits is read as one long row of bits, the lowest bit of the first word
first. `bitAt` is one bit of the row. The lemmas say what a change of one word does to the row,
that the row determines the words, and how the lowest set bit and the number of set bits of the
row are found word by word.
-/

namespace Utilpp.Lib

variable {w : Nat}

/-- A bit of the row; there are only zeros behind the last word. -/
def bitAt (words : List (BitVec w)) (q : Nat) : Bool := (words.getD (q / w) 0).getLsbD (q % w)

theorem bitAt_of_length_le {words : List (BitVec w)} {q : Nat} (h : words.length ≤ q / w) :
    bitAt words q = false := by
  unfold bitAt
  rw [List.getD_eq_default _ _ h]
  simp

/-- The bit `j` of word `i`. -/
theorem bitAt_mul_add (words : List (BitVec w)) (i : Nat) {j : Nat} (hj : j < w) :
    bitAt words (i * w + j) = (words.getD i 0).getLsbD j := by
  have hw : 0 < w := Nat.zero_lt_of_lt hj
  unfold bitAt
  rw [Nat.mul_comm, Nat.mul_add_div hw, Nat.mul_add_mod, Nat.div_eq_of_lt hj, Nat.mod_eq_of_lt hj,
    Nat.add_zero]

theorem bitAt_cons_of_lt (word : BitVec w) (words : List (BitVec w)) {q : Nat} (hq : q < w) :
    bitAt (word :: words) q = word.getLsbD q := by
  have h := bitAt_mul_add (word :: words) 0 hq
  rw [Nat.zero_mul, Nat.zero_add] at h
  exact h

theorem bitAt_cons_add (word : BitVec w) (words : List (BitVec w)) (hw : 0 < w) (q : Nat) :
    bitAt (word :: words) (q + w) = bitAt words q := by
  unfold bitAt
  rw [Nat.add_div_right _ hw, Nat.add_mod_right]
  rfl

/-- The bits of a byte of ones. -/
theorem getLsbD_ones : ∀ j < 8, (0xff : BitVec 8).getLsbD j = true := by decide

/-- A change of one word changes the bits of that word. -/
theorem bitAt_modify (words : List (BitVec w)) (i : Nat) (f : BitVec w → BitVec w) (q : Nat) :
    bitAt (words.modify i f) q =
      if q / w = i ∧ i < words.length then (f (words.getD i 0)).getLsbD (q % w)
      else bitAt words q := by
  unfold bitAt
  by_cases hi : i < words.length
  · by_cases hq : q / w = i
    · subst hq
      rw [if_pos ⟨rfl, hi⟩, List.getD_eq_getElem?_getD, List.getElem?_modify_eq,
        List.getD_eq_getElem?_getD, List.getElem?_eq_getElem hi]
      rfl
    · rw [if_neg fun h => hq h.1, List.getD_eq_getElem?_getD,
        List.getElem?_modify_ne _ _ (Ne.symm hq), ← List.getD_eq_getElem?_getD]
  · rw [if_neg fun h => hi h.2, List.modify_eq_self (Nat.not_lt.mp hi)]

/-- A word is determined by its bits. -/
theorem eq_of_bitAt_eq {words words' : List (BitVec w)} (hlength : words.length = words'.length)
    (h : ∀ q, bitAt words q = bitAt words' q) : words = words' := by
  refine List.ext_getElem hlength fun i hi hi' => ?_
  refine BitVec.eq_of_getLsbD_eq fun j hj => ?_
  have hbit := h (i * w + j)
  rw [bitAt_mul_add words i hj, bitAt_mul_add words' i hj, List.getD_eq_getElem _ _ hi,
    List.getD_eq_getElem _ _ hi'] at hbit
  exact hbit

/-! ## The row as a number -/

/-- The number with these bits. -/
def rowNumber : List (BitVec w) → Nat
  | [] => 0
  | word :: words => 2 ^ w * rowNumber words + word.toNat

theorem rowNumber_cons (word : BitVec w) (words : List (BitVec w)) :
    rowNumber (word :: words) = 2 ^ w * rowNumber words + word.toNat := rfl

theorem testBit_rowNumber (words : List (BitVec w)) (hw : 0 < w) (q : Nat) :
    (rowNumber words).testBit q = bitAt words q := by
  induction words generalizing q with
  | nil =>
      rw [bitAt_of_length_le (Nat.zero_le _)]
      exact Nat.zero_testBit q
  | cons word words ih =>
      rw [rowNumber_cons, Nat.testBit_two_pow_mul_add _ word.isLt]
      split
      · rename_i hq
        rw [bitAt_cons_of_lt word words hq]
        rfl
      · rename_i hq
        obtain ⟨k, rfl⟩ := Nat.exists_eq_add_of_le' (Nat.not_lt.mp hq)
        rw [Nat.add_sub_cancel, ih, bitAt_cons_add word words hw]

theorem rowNumber_lt (words : List (BitVec w)) : rowNumber words < 2 ^ (words.length * w) := by
  induction words with
  | nil => exact Nat.two_pow_pos _
  | cons word words ih =>
      have hword := word.isLt
      rw [rowNumber_cons, List.length_cons, Nat.succ_mul, Nat.pow_add, Nat.mul_comm (2 ^ _) (2 ^ w)]
      calc 2 ^ w * rowNumber words + word.toNat
          < 2 ^ w * rowNumber words + 2 ^ w := Nat.add_lt_add_left hword _
        _ = 2 ^ w * (rowNumber words + 1) := (Nat.mul_succ ..).symm
        _ ≤ 2 ^ w * 2 ^ (words.length * w) := Nat.mul_le_mul_left _ ih

/-! ## The first position with a property -/

/-- `r` is the first position below `n` with the property, or `n` when there is none. -/
def IsFirst (n : Nat) (P : Nat → Prop) (r : Nat) : Prop :=
  (r < n ∧ P r ∨ r = n) ∧ ∀ q < r, q < n → ¬ P q

/-- The lowest set bit of a word, counted in a wider one. -/
theorem lowest_setWidth {v : Nat} (hv : w ≤ v) {x : BitVec w} (hx : x ≠ 0) :
    (x.setWidth v).ctz.toNat < w ∧ x.getLsbD (x.setWidth v).ctz.toNat = true ∧
      ∀ j < (x.setWidth v).ctz.toNat, x.getLsbD j = false := by
  have hbits : ∀ j, (x.setWidth v).getLsbD j = x.getLsbD j := by
    intro j
    rw [BitVec.getLsbD_setWidth]
    by_cases hj : j < v
    · simp [hj]
    · rw [BitVec.getLsbD_of_ge x j (by omega), Bool.and_false]
  have hne : x.setWidth v ≠ 0#v := by
    intro hzero
    refine hx (BitVec.eq_of_getLsbD_eq fun j _ => ?_)
    rw [← hbits j, hzero]
    simp
  have hset := BitVec.getLsbD_true_ctz_of_ne_zero hne
  rw [hbits] at hset
  refine ⟨BitVec.lt_of_getLsbD hset, hset, fun j hj => ?_⟩
  rw [← hbits]
  exact BitVec.getLsbD_false_of_lt_ctz hj

/-- The lowest clear bit of a word that has one, counted in a wider one. -/
theorem lowest_not_setWidth {v : Nat} (hv : w ≤ v) {x : BitVec w} {k : Nat} (hk : k < w)
    (hclear : x.getLsbD k = false) :
    (~~~(x.setWidth v)).ctz.toNat ≤ k ∧ x.getLsbD (~~~(x.setWidth v)).ctz.toNat = false ∧
      ∀ j < (~~~(x.setWidth v)).ctz.toNat, x.getLsbD j = true := by
  have hbits : ∀ j < v, (~~~(x.setWidth v)).getLsbD j = !x.getLsbD j := by
    intro j hj
    rw [BitVec.getLsbD_not, BitVec.getLsbD_setWidth]
    simp [hj]
  have hset : (~~~(x.setWidth v)).getLsbD k = true := by
    rw [hbits k (by omega), hclear]
    rfl
  have hle : (~~~(x.setWidth v)).ctz.toNat ≤ k := by
    by_contra hlt
    rw [BitVec.getLsbD_false_of_lt_ctz (Nat.not_le.mp hlt)] at hset
    cases hset
  have hne : ~~~(x.setWidth v) ≠ 0#v := by
    intro hzero
    rw [hzero] at hset
    simp at hset
  have hlowest := BitVec.getLsbD_true_ctz_of_ne_zero hne
  rw [hbits _ (by omega)] at hlowest
  refine ⟨hle, by simpa using hlowest, fun j hj => ?_⟩
  have hbelow := BitVec.getLsbD_false_of_lt_ctz hj
  rw [hbits j (by omega)] at hbelow
  simpa using hbelow

/-! ## Set bits -/

/-- The number of set bits of a word. -/
theorem toNat_cpop_eq_countP (x : BitVec w) :
    x.cpop.toNat = (List.range w).countP x.getLsbD := by
  have hrec : ∀ k, x.cpopNatRec k 0 = (List.range k).countP x.getLsbD := by
    intro k
    induction k with
    | zero => rfl
    | succ k ih =>
        rw [BitVec.cpopNatRec_succ, BitVec.cpopNatRec_add, ih, List.range_succ, List.countP_append,
          List.countP_singleton]
        cases x.getLsbD k <;> simp
  rw [BitVec.toNat_cpop, hrec]

/-- The set bits of the row are those of the words. -/
theorem sum_cpop (words : List (BitVec w)) :
    (words.map fun x => x.cpop.toNat).sum =
      (List.range (words.length * w)).countP (bitAt words) := by
  have hsum : ∀ k, k ≤ words.length →
      ((words.take k).map fun x => x.cpop.toNat).sum =
        (List.range (k * w)).countP (bitAt words) := by
    intro k hk
    induction k with
    | zero => simp
    | succ k ih =>
        have hlt : k < words.length := hk
        rw [List.take_succ_eq_append_getElem hlt, List.map_append, List.sum_append,
          ih (Nat.le_of_lt hlt), Nat.succ_mul, List.range_add, List.countP_append, List.countP_map,
          List.map_singleton, List.sum_singleton, toNat_cpop_eq_countP]
        congr 1
        refine List.countP_congr fun j hj => ?_
        rw [List.mem_range] at hj
        rw [Function.comp_apply, bitAt_mul_add words k hj, List.getD_eq_getElem _ _ hlt]
  have hall := hsum words.length (Nat.le_refl _)
  rwa [List.take_length] at hall

end Utilpp.Lib
