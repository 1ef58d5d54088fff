import Mathlib.Algebra.Ring.Nat
import Mathlib.Data.List.Basic

/-!
# First fit

Blocks lie one behind the other in a row of cells. First fit looks for the first gap between them
that has enough cells. When every block has a cell, it finds room exactly if one of the maximal gaps
has enough of them (`firstFit_isSome_iff`), and a block that is put there leaves the blocks in
order (`Laid.firstFit`).
-/

namespace Utilpp.Lib

variable {α : Type*}

/-- The blocks lie one behind the other between the cells `low` and `high`. -/
def Laid (start size : α → Nat) (high : Nat) : Nat → List α → Prop
  | low, [] => low ≤ high
  | low, x :: xs => low ≤ start x ∧ Laid start size high (start x + size x) xs

/-- A cell that belongs to no block. -/
def IsFree (start size : α → Nat) (high : Nat) (xs : List α) (p : Nat) : Prop :=
  p < high ∧ ∀ x ∈ xs, p < start x ∨ start x + size x ≤ p

/-- The blocks before the first gap of `need` cells, the cell where it starts, and the blocks behind
it. -/
def firstFit (start size : α → Nat) (high need : Nat) :
    Nat → List α → Option (List α × Nat × List α)
  | low, [] => if need ≤ high - low then some ([], low, []) else none
  | low, x :: xs =>
      if need ≤ start x - low then some ([], low, x :: xs)
      else
        (firstFit start size high need (start x + size x) xs).map
          fun found => (x :: found.1, found.2)

/-- A maximal run of cells with a property: those from `first` up to, but not with, `last`. -/
structure MaximalRun (free : Nat → Prop) (first last : Nat) : Prop where
  nonempty : first < last
  run : ∀ p, first ≤ p → p < last → free p
  left : ∀ p, p + 1 = first → ¬ free p
  right : ¬ free last

/-! ## Maximal runs -/

/-- A run of cells with a property starts behind a cell without it, or at the first cell. -/
theorem exists_first {free : Nat → Prop} {first last : Nat}
    (hfree : ∀ p, first ≤ p → p < last → free p) :
    ∃ a ≤ first, (∀ p, a ≤ p → p < last → free p) ∧ ∀ p, p + 1 = a → ¬ free p := by
  induction first with
  | zero => exact ⟨0, Nat.le_refl 0, hfree, fun p hp => absurd hp (Nat.succ_ne_zero p)⟩
  | succ first ih =>
      by_cases hprev : free first
      · obtain ⟨a, ha, hrun, hleft⟩ := ih fun p hp hlast => by
          rcases Nat.lt_or_eq_of_le hp with hlt | rfl
          · exact hfree p hlt hlast
          · exact hprev
        exact ⟨a, Nat.le_succ_of_le ha, hrun, hleft⟩
      · refine ⟨first + 1, Nat.le_refl _, hfree, fun p hp => ?_⟩
        rw [Nat.succ.inj hp]
        exact hprev

/-- A run of cells ends before a cell without the property. -/
theorem exists_last {free : Nat → Prop} {high first last : Nat} (hhigh : ∀ p, free p → p < high)
    (hfree : ∀ p, first ≤ p → p < last → free p) :
    ∃ b, last ≤ b ∧ (∀ p, first ≤ p → p < b → free p) ∧ ¬ free b := by
  induction hroom : high - last generalizing last with
  | zero => exact ⟨last, Nat.le_refl last, hfree, fun hlast => by have := hhigh last hlast; omega⟩
  | succ room ih =>
      by_cases hnext : free last
      · obtain ⟨b, hb, hrun, hright⟩ := @ih (last + 1) (fun p hp hlast => by
          rcases Nat.lt_or_eq_of_le (Nat.le_of_lt_succ hlast) with hlt | rfl
          · exact hfree p hp hlt
          · exact hnext) (by omega)
        exact ⟨b, Nat.le_of_succ_le hb, hrun, hright⟩
      · exact ⟨last, Nat.le_refl last, hfree, hnext⟩

/-- Cells with a property that follow each other lie in a maximal run. -/
theorem exists_maximalRun {free : Nat → Prop} {high first last : Nat}
    (hhigh : ∀ p, free p → p < high) (hlt : first < last)
    (hfree : ∀ p, first ≤ p → p < last → free p) :
    ∃ a b, MaximalRun free a b ∧ a ≤ first ∧ last ≤ b := by
  obtain ⟨a, ha, hrun, hleft⟩ := exists_first hfree
  obtain ⟨b, hb, hrun, hright⟩ := exists_last hhigh hrun
  exact ⟨a, b, ⟨by omega, hrun, hleft, hright⟩, ha, hb⟩

/-! ## Blocks in order -/

variable {start size : α → Nat} {high low : Nat} {xs : List α}

theorem Laid.le_stop {x : α} (h : Laid start size high low (x :: xs)) :
    low ≤ start x + size x :=
  Nat.le_trans h.1 (Nat.le_add_right _ _)

theorem Laid.low_le (h : Laid start size high low xs) : low ≤ high := by
  induction xs generalizing low with
  | nil => exact h
  | cons x xs ih => exact Nat.le_trans h.le_stop (ih h.2)

theorem Laid.mono (h : Laid start size high low xs) {first : Nat} (hfirst : first ≤ low) :
    Laid start size high first xs := by
  cases xs with
  | nil => exact Nat.le_trans hfirst h
  | cons x xs => exact ⟨Nat.le_trans hfirst h.1, h.2⟩

/-- Every block lies between `low` and `high`. -/
theorem Laid.bounds (h : Laid start size high low xs) {x : α} (hx : x ∈ xs) :
    low ≤ start x ∧ start x + size x ≤ high := by
  induction xs generalizing low with
  | nil => cases hx
  | cons y xs ih =>
      rcases List.mem_cons.mp hx with rfl | hx
      · exact ⟨h.1, h.2.low_le⟩
      · obtain ⟨hlow, hhigh⟩ := ih h.2 hx
        exact ⟨Nat.le_trans h.le_stop hlow, hhigh⟩

/-- A block ends before the next one starts. -/
theorem Laid.pairwise (h : Laid start size high low xs) :
    xs.Pairwise fun x y => start x + size x ≤ start y := by
  induction xs generalizing low with
  | nil => exact .nil
  | cons x xs ih => exact List.pairwise_cons.mpr ⟨fun y hy => (h.2.bounds hy).1, ih h.2⟩

/-- Two blocks have no common cell. -/
theorem Laid.disjoint (h : Laid start size high low xs) {x y : α} (hx : x ∈ xs) (hy : y ∈ xs)
    (hne : x ≠ y) : start x + size x ≤ start y ∨ start y + size y ≤ start x := by
  induction xs generalizing low with
  | nil => cases hx
  | cons z xs ih =>
      rcases List.mem_cons.mp hx with rfl | hxs
      · rcases List.mem_cons.mp hy with rfl | hys
        · exact absurd rfl hne
        · exact .inl (h.2.bounds hys).1
      · rcases List.mem_cons.mp hy with rfl | hys
        · exact .inr (h.2.bounds hxs).1
        · exact ih h.2 hxs hys

/-- Blocks that are taken away leave the others in order. -/
theorem Laid.sublist (h : Laid start size high low xs) {ys : List α} (hsub : ys.Sublist xs) :
    Laid start size high low ys := by
  induction hsub generalizing low with
  | slnil => exact h
  | cons x _ ih => exact ih (h.2.mono h.le_stop)
  | cons_cons x _ ih => exact ⟨h.1, ih h.2⟩

/-- Only where the blocks of the list start matters. -/
theorem Laid.congr (h : Laid start size high low xs) {start' : α → Nat}
    (heq : ∀ x ∈ xs, start' x = start x) : Laid start' size high low xs := by
  induction xs generalizing low with
  | nil => exact h
  | cons x xs ih =>
      have hx := heq x List.mem_cons_self
      refine ⟨hx ▸ h.1, ?_⟩
      rw [hx]
      exact ih h.2 fun y hy => heq y (List.mem_cons_of_mem x hy)

/-! ## The search -/

variable {need cursor : Nat} {before after : List α}

theorem firstFit_nil : firstFit start size high need low [] =
    if need ≤ high - low then some ([], low, []) else none :=
  rfl

/-- A gap before the first block, or one behind it. -/
theorem firstFit_cons {x : α} : firstFit start size high need low (x :: xs) =
    if need ≤ start x - low then some ([], low, x :: xs)
    else (firstFit start size high need (start x + size x) xs).map
      fun found => (x :: found.1, found.2) :=
  rfl

/-- The search looks at the blocks of the list only. -/
theorem firstFit_congr {start' size' : α → Nat}
    (heq : ∀ x ∈ xs, start' x = start x ∧ size' x = size x) :
    firstFit start' size' high need low xs = firstFit start size high need low xs := by
  induction xs generalizing low with
  | nil => rfl
  | cons x xs ih =>
      obtain ⟨hstart, hsize⟩ := heq x List.mem_cons_self
      rw [firstFit_cons, firstFit_cons, hstart, hsize,
        ih fun y hy => heq y (List.mem_cons_of_mem x hy)]

theorem firstFit_eq_append (hfound : firstFit start size high need low xs =
    some (before, cursor, after)) : xs = before ++ after := by
  induction xs generalizing low before with
  | nil =>
      rw [firstFit_nil] at hfound
      split at hfound
      · cases hfound
        rfl
      · cases hfound
  | cons x xs ih =>
      rw [firstFit_cons] at hfound
      split at hfound
      · cases hfound
        rfl
      · obtain ⟨⟨before', found⟩, hrest, heq⟩ := Option.map_eq_some_iff.mp hfound
        cases heq
        exact congrArg (x :: ·) (ih hrest)

/-- A block of `need` cells that is put where first fit finds room leaves the blocks in order. -/
theorem Laid.firstFit (h : Laid start size high low xs)
    (hfound : Lib.firstFit start size high need low xs = some (before, cursor, after))
    {start' : α → Nat} (hothers : ∀ x ∈ xs, start' x = start x) {c : α}
    (hstart : start' c = cursor) (hsize : size c = need) :
    Laid start' size high low (before ++ c :: after) := by
  induction xs generalizing low before with
  | nil =>
      have hle : low ≤ high := h
      rw [firstFit_nil] at hfound
      split at hfound
      · rename_i hroom
        cases hfound
        refine ⟨Nat.le_of_eq hstart.symm, ?_⟩
        show start' c + size c ≤ high
        rw [hstart, hsize]
        omega
      · cases hfound
  | cons x xs ih =>
      have hx := hothers x List.mem_cons_self
      rw [firstFit_cons] at hfound
      split at hfound
      · rename_i hroom
        cases hfound
        obtain ⟨hle, hbehind⟩ := h.congr hothers
        refine ⟨Nat.le_of_eq hstart.symm, ?_, hbehind⟩
        rw [hstart, hsize]
        omega
      · obtain ⟨⟨before', found⟩, hrest, heq⟩ := Option.map_eq_some_iff.mp hfound
        cases heq
        refine ⟨hx ▸ h.1, ?_⟩
        rw [hx]
        exact ih h.2 hrest fun y hy => hothers y (List.mem_cons_of_mem x hy)

/-- The cells that first fit finds belong to no block. -/
theorem Laid.isFree_firstFit (h : Laid start size high low xs)
    (hfound : Lib.firstFit start size high need low xs = some (before, cursor, after))
    (hneed : 0 < need) {p : Nat} (hp : cursor ≤ p) (hlt : p < cursor + need) :
    low ≤ p ∧ IsFree start size high xs p := by
  induction xs generalizing low before with
  | nil =>
      rw [firstFit_nil] at hfound
      split at hfound
      · rename_i hroom
        cases hfound
        exact ⟨hp, by omega, fun _ hx => nomatch hx⟩
      · cases hfound
  | cons x xs ih =>
      rw [firstFit_cons] at hfound
      split at hfound
      · rename_i hroom
        cases hfound
        have hx : p < start x := by omega
        have hhigh := h.2.low_le
        refine ⟨hp, by omega, fun y hy => .inl ?_⟩
        rcases List.mem_cons.mp hy with rfl | hy
        · exact hx
        · have hbehind := (h.2.bounds hy).1
          omega
      · obtain ⟨⟨before', found⟩, hrest, heq⟩ := Option.map_eq_some_iff.mp hfound
        cases heq
        obtain ⟨hbehind, hhigh, hfree⟩ := ih h.2 hrest
        refine ⟨Nat.le_trans h.le_stop hbehind, hhigh, fun y hy => ?_⟩
        rcases List.mem_cons.mp hy with rfl | hy
        · exact .inr hbehind
        · exact hfree y hy

/-- First fit overlooks no gap that is large enough. -/
theorem firstFit_complete (hnone : firstFit start size high need low xs = none)
    (hsize : ∀ x ∈ xs, 0 < size x) (hneed : 0 < need) {first : Nat} (hfirst : low ≤ first) :
    ¬ ∀ p, first ≤ p → p < first + need → IsFree start size high xs p := by
  intro hfree
  induction xs generalizing low with
  | nil =>
      rw [firstFit_nil] at hnone
      split at hnone
      · cases hnone
      · have hlast := (hfree (first + need - 1) (by omega) (by omega)).1
        omega
  | cons x xs ih =>
      rw [firstFit_cons] at hnone
      split at hnone
      · cases hnone
      · have hx := hsize x List.mem_cons_self
        -- the cells lie behind the block: there is not enough room before it
        have hbehind : start x + size x ≤ first := by
          by_contra hnot
          have hbefore := (hfree first (Nat.le_refl _) (by omega)).2 x List.mem_cons_self
          have hinside := (hfree (start x) (by omega) (by omega)).2 x List.mem_cons_self
          omega
        refine ih (Option.map_eq_none_iff.mp hnone)
          (fun y hy => hsize y (List.mem_cons_of_mem x hy)) hbehind fun p hp hlt => ?_
        obtain ⟨hhigh, hothers⟩ := hfree p hp hlt
        exact ⟨hhigh, fun y hy => hothers y (List.mem_cons_of_mem x hy)⟩

/-- First fit finds room exactly if there is a maximal gap with enough cells. -/
theorem firstFit_isSome_iff (h : Laid start size high 0 xs) (hsize : ∀ x ∈ xs, 0 < size x)
    (hneed : 0 < need) : (firstFit start size high need 0 xs).isSome ↔
      ∃ a b, MaximalRun (IsFree start size high xs) a b ∧ need ≤ b - a := by
  constructor
  · intro hsome
    obtain ⟨⟨before, cursor, after⟩, hfound⟩ := Option.isSome_iff_exists.mp hsome
    obtain ⟨a, b, hrun, ha, hb⟩ := exists_maximalRun (fun p hp => hp.1)
      (Nat.lt_add_of_pos_right hneed)
      fun p hp hlt => (h.isFree_firstFit hfound hneed hp hlt).2
    exact ⟨a, b, hrun, by omega⟩
  · rintro ⟨a, b, hrun, hroom⟩
    by_contra hnot
    have hnone := Option.not_isSome_iff_eq_none.mp hnot
    exact firstFit_complete hnone hsize hneed (Nat.zero_le a) fun p hp hlt =>
      hrun.run p hp (by omega)

end Utilpp.Lib
