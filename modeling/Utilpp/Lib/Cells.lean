import Mathlib.Algebra.Ring.Nat
import Mathlib.Data.List.Range

/-!
# Cells

A buffer as a function from positions to cells. `slice` is what stands in some cells that follow
each other and `store` writes into them. A search for a cell looks at the cells in order; when what
it looks for does not stand in the first cells the search goes on behind them
(`firstIndex_of_slice`).
-/

namespace Utilpp.Lib.Cells

variable {α : Type*} {buf buf' : Nat → α} {pos len m n : Nat} {cells more : List α} {p : α → Bool}

/-- The `len` cells from `pos` on. -/
def slice (buf : Nat → α) (pos len : Nat) : List α := (List.range len).map fun i => buf (pos + i)

/-- The buffer with `cells` written from `pos` on. -/
def store (buf : Nat → α) (pos : Nat) (cells : List α) (i : Nat) : α :=
  if i < pos then buf i else cells[i - pos]?.getD (buf i)

/-- The first of `size` cells with a property. -/
def firstIndex (buf : Nat → α) (p : α → Bool) (size : Nat) : Option Nat :=
  (slice buf 0 size).findIdx? p

@[simp] theorem length_slice : (slice buf pos len).length = len := by
  rw [slice, List.length_map, List.length_range]

theorem slice_add : slice buf pos (m + n) = slice buf pos m ++ slice buf (pos + m) n := by
  rw [slice, List.range_add, List.map_append, List.map_map, slice, slice]
  congr 1
  refine List.map_congr_left fun i _ => ?_
  rw [Function.comp_apply, Nat.add_assoc]

theorem slice_succ : slice buf pos (n + 1) = slice buf pos n ++ [buf (pos + n)] := by
  rw [slice_add]
  rfl

theorem slice_congr (h : ∀ i < len, buf' (m + i) = buf (n + i)) :
    slice buf' m len = slice buf n len :=
  List.map_congr_left fun i hi => h i (List.mem_range.mp hi)

theorem mem_slice {x : α} : x ∈ slice buf pos len ↔ ∃ i < len, buf (pos + i) = x := by
  simp only [slice, List.mem_map, List.mem_range]

theorem getElem?_slice {i : Nat} (h : i < len) :
    (slice buf pos len)[i]? = some (buf (pos + i)) := by
  rw [slice, List.getElem?_map, List.getElem?_range h, Option.map_some]

/-- The cells before those that are written stay as they are. -/
theorem slice_store_of_le (h : pos + len ≤ n) :
    slice (store buf n cells) pos len = slice buf pos len := by
  refine slice_congr fun i hi => ?_
  rw [store, if_pos (by omega)]

/-- What was written is read. -/
theorem slice_store : slice (store buf pos cells) pos cells.length = cells := by
  refine List.ext_getElem length_slice fun i hi hcells => ?_
  have hnot : ¬ pos + i < pos := Nat.not_lt.mpr (Nat.le_add_right _ _)
  simp only [slice, List.getElem_map, List.getElem_range, store, if_neg hnot,
    Nat.add_sub_cancel_left, List.getElem?_eq_getElem hcells, Option.getD_some]

/-- Writing behind the first cells extends them. -/
theorem slice_store_append :
    slice (store buf n (cells ++ more)) 0 (n + cells.length) = slice buf 0 n ++ cells := by
  rw [slice_add, slice_store_of_le (Nat.le_of_eq (Nat.zero_add n)), Nat.zero_add]
  congr 1
  have hall : slice (store buf n (cells ++ more)) n (cells.length + more.length) =
      cells ++ more := by
    rw [← List.length_append]
    exact slice_store
  rw [slice_add] at hall
  exact (List.append_inj hall length_slice).1

/-! ## Parts of a slice -/

theorem take_slice (h : m ≤ n) : (slice buf 0 n).take m = slice buf 0 m := by
  obtain ⟨k, rfl⟩ := Nat.exists_eq_add_of_le h
  rw [slice_add, List.take_left' length_slice]

theorem drop_slice (h : m ≤ n) : (slice buf 0 n).drop m = slice buf m (n - m) := by
  obtain ⟨k, rfl⟩ := Nat.exists_eq_add_of_le h
  rw [slice_add, List.drop_left' length_slice, Nat.zero_add, Nat.add_sub_cancel_left]

/-! ## Searching -/

/-- When the first cells have what is looked for, it is found there, and otherwise behind them. -/
theorem firstIndex_of_slice {size : Nat} (h : n < size) :
    (∃ i, (slice buf 0 n).findIdx? p = some i ∧ i < n ∧ firstIndex buf p size = some i) ∨
      (slice buf 0 n).findIdx? p = none ∧
        firstIndex buf p size = ((slice buf n (size - n)).findIdx? p).map (· + n) := by
  have hsplit : slice buf 0 size = slice buf 0 n ++ slice buf n (size - n) := by
    obtain ⟨k, rfl⟩ := Nat.exists_eq_add_of_lt h
    rw [Nat.add_assoc, slice_add, Nat.zero_add, Nat.add_sub_cancel_left]
  rw [firstIndex, hsplit, List.findIdx?_append, length_slice]
  cases hfind : (slice buf 0 n).findIdx? p with
  | none => exact .inr ⟨rfl, rfl⟩
  | some i =>
      have hlt := (List.findIdx?_eq_some_iff_findIdx_eq.mp hfind).1
      rw [length_slice] at hlt
      exact .inl ⟨i, rfl, hlt, rfl⟩

end Utilpp.Lib.Cells
