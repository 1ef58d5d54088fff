import Mathlib.Algebra.Ring.Nat
import Mathlib.Data.List.Basic

/-!
# Blocks of memory

A block is a list of cells. A cell that nothing was written to holds no value. Copying into a
block is defined only when every cell that is written lies in the block, reading only when every
cell that is read does.
-/

namespace Utilpp.Lib

variable {β : Type*}

/-- The cells of one allocation. -/
abbrev Block (β : Type*) := List (Option β)

namespace Block

/-- A block as an allocator returns it. -/
def fresh (β : Type*) (size : Nat) : Block β := List.replicate size none

/-- The block with `cells` written from index `pos` on. -/
def store (block : Block β) (pos : Nat) (cells : List (Option β)) : Option (Block β) :=
  if pos + cells.length ≤ block.length then
    some (block.take pos ++ cells ++ block.drop (pos + cells.length))
  else none

/-- The first `n` cells. -/
def load (block : Block β) (n : Nat) : Option (List (Option β)) :=
  if n ≤ block.length then some (block.take n) else none

@[simp] theorem length_fresh (size : Nat) : (fresh β size).length = size :=
  List.length_replicate

/-- Writing behind a known beginning extends the beginning and keeps the size of the block. -/
theorem store_after {block : Block β} {known cells : List (Option β)} (hknown : known <+: block)
    (hroom : known.length + cells.length ≤ block.length) :
    ∃ block' : Block β, store block known.length cells = some block' ∧
      block'.length = block.length ∧ known ++ cells <+: block' := by
  obtain ⟨rest, rfl⟩ := hknown
  refine ⟨_, if_pos hroom, ?_, ?_⟩
  · simp only [List.length_append] at hroom
    simp only [List.length_append, List.take_left, List.length_drop]
    omega
  · rw [List.take_left]
    exact List.prefix_append _ _

/-- Writing at the start of a block. -/
theorem store_zero {block : Block β} {cells : List (Option β)}
    (hroom : cells.length ≤ block.length) :
    ∃ block' : Block β, store block 0 cells = some block' ∧
      block'.length = block.length ∧ cells <+: block' := by
  have hstore := @store_after _ block [] cells List.nil_prefix
    (by rw [List.length_nil, Nat.zero_add]; exact hroom)
  rwa [List.length_nil, List.nil_append] at hstore

/-- Writing at the start of a block that was just allocated. -/
theorem store_fresh {cells : List (Option β)} {size : Nat} (hroom : cells.length ≤ size) :
    ∃ block' : Block β, store (fresh β size) 0 cells = some block' ∧
      block'.length = size ∧ cells <+: block' := by
  have hstore := @store_zero _ (fresh β size) cells (by rwa [length_fresh])
  rwa [length_fresh] at hstore

/-- Writing changes the cells that are written and no others. -/
theorem getElem?_store {block block' : Block β} {pos : Nat} {cells : List (Option β)}
    (h : store block pos cells = some block') (i : Nat) :
    block'[i]? = if pos ≤ i ∧ i < pos + cells.length then cells[i - pos]? else block[i]? := by
  unfold store at h
  split at h
  · rename_i hroom
    have htake : (block.take pos).length = pos := List.length_take_of_le (by omega)
    cases h
    by_cases hlow : i < pos
    · rw [if_neg (by omega), List.append_assoc, List.getElem?_append_left (by omega),
        List.getElem?_take_of_lt hlow]
    · by_cases hhigh : i < pos + cells.length
      · rw [if_pos ⟨by omega, hhigh⟩, List.append_assoc, List.getElem?_append_right (by omega),
          htake, List.getElem?_append_left (by omega)]
      · have hindex : pos + cells.length + (i - (pos + cells.length)) = i := by omega
        rw [if_neg (by omega), List.getElem?_append_right (by rw [List.length_append]; omega),
          List.length_append, htake, List.getElem?_drop, hindex]
  · cases h

/-- Reading a known beginning. -/
theorem load_known {block : Block β} {known : List (Option β)} (hknown : known <+: block) :
    load block known.length = some known := by
  rw [load, if_pos hknown.length_le, ← List.prefix_iff_eq_take.mp hknown]

end Block

end Utilpp.Lib
