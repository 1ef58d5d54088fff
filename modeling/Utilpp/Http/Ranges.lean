import Utilpp.Lib.Ranges
import Mathlib.Data.List.Induction

/-!
# The ranges of a request

`FCurlHttpRequest::SetRange` adds a closed range of bytes to the list `Ranges` of a request. It
takes the ranges out that meet the new one and puts one range in their place. Ranges that are next
to each other stay apart. `ranges_canonical` says what the list is after any number of calls.
-/

namespace Utilpp.Http.FCurlHttpRequest

open Lib

/-- The loop of `SetRange` over `Ranges`, and the `push_back` after it. -/
def setRangeLoop (first last : UInt64) : List (UInt64 × UInt64) → List (UInt64 × UInt64)
  | [] => [(first, last)]
  | r :: ranges =>
      if first ≤ r.1 then
        if last < r.1 then (first, last) :: r :: ranges
        else setRangeLoop first (max r.2 last) ranges
      else if first > r.2 then r :: setRangeLoop first last ranges
      else if last ≤ r.2 then r :: ranges
      else setRangeLoop (min r.1 first) last ranges

/-- `SetRange` -/
def setRange (ranges : List (UInt64 × UInt64)) (range : UInt64 × UInt64) :
    List (UInt64 × UInt64) :=
  if range.2 < range.1 then ranges else setRangeLoop range.1 range.2 ranges

/-- `Ranges` of a new request after calls to `SetRange`. -/
def rangesAfter (calls : List (UInt64 × UInt64)) : List (UInt64 × UInt64) := calls.foldl setRange []

/-- What `Ranges` is after the calls: sorted, with the numbers of the requested ranges, and the same
for every order of the calls. -/
structure Canonical (calls : List (UInt64 × UInt64)) : Prop where
  nonempty : ∀ r ∈ rangesAfter calls, r.1 ≤ r.2
  sorted : (rangesAfter calls).Pairwise fun r s => r.1 < s.1
  disjoint : (rangesAfter calls).Pairwise fun r s => ∀ x, ¬ (r.1 ≤ x ∧ x ≤ r.2 ∧ s.1 ≤ x ∧ x ≤ s.2)
  union : ∀ x, (∃ r ∈ rangesAfter calls, r.1 ≤ x ∧ x ≤ r.2) ↔
    ∃ c ∈ calls, c.1 ≤ c.2 ∧ c.1 ≤ x ∧ x ≤ c.2
  order : ∀ calls', calls.Perm calls' → rangesAfter calls' = rangesAfter calls

/-! ## One call -/

/-- The first number of a range. -/
def lo (r : UInt64 × UInt64) : Nat := r.1.toNat

/-- The last number of a range. -/
def hi (r : UInt64 × UInt64) : Nat := r.2.toNat

theorem toNat_max (a b : UInt64) : (max a b).toNat = max a.toNat b.toNat := by
  have hmax : max a b = if a ≤ b then b else a := rfl
  rw [hmax]
  split
  · rename_i hle
    exact (Nat.max_eq_right (UInt64.le_iff_toNat_le.mp hle)).symm
  · rename_i hnot
    exact (Nat.max_eq_left (Nat.le_of_not_le fun hle =>
      hnot (UInt64.le_iff_toNat_le.mpr hle))).symm

theorem toNat_min (a b : UInt64) : (min a b).toNat = min a.toNat b.toNat := by
  have hmin : min a b = if a ≤ b then a else b := rfl
  rw [hmin]
  split
  · rename_i hle
    exact (Nat.min_eq_left (UInt64.le_iff_toNat_le.mp hle)).symm
  · rename_i hnot
    exact (Nat.min_eq_right (Nat.le_of_not_le fun hle =>
      hnot (UInt64.le_iff_toNat_le.mpr hle))).symm

variable {first last : UInt64} {ranges : List (UInt64 × UInt64)} {x : Nat}

/-- The new range is added to what the ranges touch. -/
theorem touches_setRangeLoop : Touches lo hi (setRangeLoop first last ranges) x ↔
    (2 * first.toNat ≤ x ∧ x ≤ 2 * last.toNat) ∨ Touches lo hi ranges x := by
  induction ranges generalizing first last with
  | nil => exact touches_cons
  | cons r ranges ih =>
      rw [setRangeLoop]
      simp only [UInt64.le_iff_toNat_le, UInt64.lt_iff_toNat_lt, gt_iff_lt]
      split
      · split
        · exact touches_cons
        · rw [ih, toNat_max, touches_cons, ← or_assoc]
          refine or_congr_left ?_
          simp only [lo, hi]
          omega
      · split
        · rw [touches_cons, touches_cons, ih, or_left_comm]
        · split
          · -- the new range lies in an old one
            refine (or_iff_right_of_imp fun hnew => touches_cons.mpr (.inl ?_)).symm
            simp only [lo, hi]
            omega
          · rw [ih, toNat_min, touches_cons, ← or_assoc]
            refine or_congr_left ?_
            simp only [lo, hi]
            omega

/-- The ranges start behind whatever is before the new range and the old ones. -/
theorem lt_setRangeLoop {low : Nat} (hfirst : low < first.toNat)
    (hranges : ∀ r ∈ ranges, low < lo r) :
    ∀ r ∈ setRangeLoop first last ranges, low < lo r := by
  induction ranges generalizing first last with
  | nil => exact fun r hr => List.mem_singleton.mp hr ▸ hfirst
  | cons r ranges ih =>
      obtain ⟨hr, hrest⟩ := List.forall_mem_cons.mp hranges
      rw [setRangeLoop]
      split
      · split
        · exact List.forall_mem_cons.mpr ⟨hfirst, hranges⟩
        · exact ih hfirst hrest
      · split
        · exact List.forall_mem_cons.mpr ⟨hr, ih hfirst hrest⟩
        · split
          · exact hranges
          · refine ih ?_ hrest
            rw [toNat_min]
            exact Nat.lt_min.mpr ⟨hr, hfirst⟩

/-- The loop keeps the ranges apart. -/
theorem separated_setRangeLoop (hle : first.toNat ≤ last.toNat) (h : Separated lo hi ranges) :
    Separated lo hi (setRangeLoop first last ranges) := by
  induction ranges generalizing first last with
  | nil => exact separated_cons.mpr ⟨hle, fun _ hr => absurd hr List.not_mem_nil, separated_nil⟩
  | cons r ranges ih =>
      obtain ⟨hr, hbehind, hrest⟩ := separated_cons.mp h
      rw [setRangeLoop]
      simp only [UInt64.le_iff_toNat_le, UInt64.lt_iff_toNat_lt, gt_iff_lt]
      split
      · split
        · rename_i hbefore
          refine separated_cons.mpr ⟨hle, List.forall_mem_cons.mpr ⟨hbefore, fun s hs => ?_⟩, h⟩
          exact Nat.lt_of_lt_of_le hbefore (Nat.le_trans hr (Nat.le_of_lt (hbehind s hs)))
        · refine ih ?_ hrest
          rw [toNat_max]
          omega
      · split
        · rename_i hafter
          exact separated_cons.mpr ⟨hr, lt_setRangeLoop hafter hbehind, ih hle hrest⟩
        · split
          · exact h
          · refine ih ?_ hrest
            rw [toNat_min]
            omega

/-! ## All calls -/

theorem rangesAfter_concat (calls : List (UInt64 × UInt64)) (c : UInt64 × UInt64) :
    rangesAfter (calls ++ [c]) = setRange (rangesAfter calls) c :=
  List.foldl_concat ..

theorem separated_rangesAfter (calls : List (UInt64 × UInt64)) :
    Separated lo hi (rangesAfter calls) := by
  induction calls using List.reverseRecOn with
  | nil => exact separated_nil
  | append_singleton calls c ih =>
      rw [rangesAfter_concat, setRange]
      split
      · exact ih
      · rename_i hnot
        exact separated_setRangeLoop (Nat.le_of_not_lt fun hlt =>
          hnot (UInt64.lt_iff_toNat_lt.mpr hlt)) ih

theorem touches_rangesAfter (calls : List (UInt64 × UInt64)) :
    Touches lo hi (rangesAfter calls) x ↔ Touches lo hi calls x := by
  induction calls using List.reverseRecOn with
  | nil => exact Iff.rfl
  | append_singleton calls c ih =>
      rw [rangesAfter_concat, setRange, touches_concat, ← ih]
      split
      · -- a range whose end comes first is ignored, and touches nothing
        rename_i hlt
        have hlt := UInt64.lt_iff_toNat_lt.mp hlt
        refine (or_iff_left fun hnew => ?_).symm
        simp only [lo, hi] at hnew
        omega
      · rw [touches_setRangeLoop, or_comm]
        rfl

theorem exists_mem_iff_touches (ranges : List (UInt64 × UInt64)) (x : UInt64) :
    (∃ r ∈ ranges, r.1 ≤ x ∧ x ≤ r.2) ↔ Touches lo hi ranges (2 * x.toNat) := by
  simp only [touches_two_mul, UInt64.le_iff_toNat_le]
  rfl

/-- After any calls the ranges are sorted, apart from each other, and those that were requested, and
the order of the calls does not matter. -/
theorem ranges_canonical (calls : List (UInt64 × UInt64)) : Canonical calls where
  nonempty r hr := UInt64.le_iff_toNat_le.mpr ((separated_rangesAfter calls).nonempty r hr)
  sorted := by
    refine (separated_rangesAfter calls).apart.imp_of_mem fun hr _ hlt => ?_
    exact UInt64.lt_iff_toNat_lt.mpr
      (Nat.lt_of_le_of_lt ((separated_rangesAfter calls).nonempty _ hr) hlt)
  disjoint := by
    refine (separated_rangesAfter calls).apart.imp fun hlt x hx => ?_
    obtain ⟨-, hhi, hlo, -⟩ := hx
    have hhi := UInt64.le_iff_toNat_le.mp hhi
    have hlo := UInt64.le_iff_toNat_le.mp hlo
    simp only [Http.FCurlHttpRequest.lo, Http.FCurlHttpRequest.hi] at hlt
    omega
  union x := by
    rw [exists_mem_iff_touches, touches_rangesAfter, ← exists_mem_iff_touches]
    refine exists_congr fun c => and_congr_right fun _ => ?_
    exact ⟨fun hx => ⟨UInt64.le_trans hx.1 hx.2, hx⟩, fun hx => hx.2⟩
  order calls' hperm := by
    have hinj : ∀ r s, lo r = lo s → hi r = hi s → r = s := fun r s hlo hhi =>
      Prod.ext (UInt64.toNat_inj.mp hlo) (UInt64.toNat_inj.mp hhi)
    have h := separated_rangesAfter calls
    refine Separated.ext hinj (separated_rangesAfter calls') h fun x => ?_
    rw [touches_rangesAfter, touches_rangesAfter, touches_perm hperm]

example : rangesAfter [(1, 2), (3, 4), (8, 9), (4, 8)] = [(1, 2), (3, 9)] := by decide

end Utilpp.Http.FCurlHttpRequest
