import Mathlib.Data.UInt

/-!
# Handle numbers

`CommonHandle32_t(std::atomic<uint32_t>& counter)`: a handle takes the next number of a counter
and skips the number that means "no handle".
-/

namespace Utilpp

/-- `NullCommonHandleID`, the greatest `uint32_t`. -/
def nullCommonHandleID : UInt32 := 0xffffffff

/-- The number of a new handle and the counter behind it. -/
def drawID (counter : UInt32) : UInt32 × UInt32 :=
  if counter ≠ nullCommonHandleID then (counter, counter + 1)
  else (counter + 1, counter + 1 + 1)

/-- A drawn number is never the null number. -/
theorem drawID_ne_null (counter : UInt32) : (drawID counter).1 ≠ nullCommonHandleID := by
  unfold drawID
  split
  · assumption
  · rename_i h
    rw [not_not] at h
    rw [h]
    decide

/-- A counter that has not reached the null handle gives its number away. -/
theorem drawID_counted (counter : UInt32) (h : counter.toNat + 1 < 2 ^ 32) :
    (drawID counter).1 = counter ∧ (drawID counter).2.toNat = counter.toNat + 1 := by
  have hne : counter ≠ nullCommonHandleID := by
    rintro rfl
    exact absurd h (by decide)
  rw [drawID, if_pos hne]
  refine ⟨rfl, ?_⟩
  rw [UInt32.toNat_add]
  exact Nat.mod_eq_of_lt h

/-! ## The numbers in their order -/

/-- The `n`-th number that is drawn from a counter which begins at the null number. -/
def handleAt (n : Nat) : UInt32 := UInt32.ofNat (n % 4294967295)

/-- The counter after `n` draws. -/
def counterAt : Nat → UInt32
  | 0 => nullCommonHandleID
  | n + 1 => UInt32.ofNat (n % 4294967295 + 1)

theorem drawID_counterAt (n : Nat) : drawID (counterAt n) = (handleAt n, counterAt (n + 1)) := by
  cases n with
  | zero => decide
  | succ n =>
      by_cases hlast : n % 4294967295 = 4294967294
      · -- the counter is at the null number
        have hnext : (n + 1) % 4294967295 = 0 := by omega
        rw [handleAt, counterAt, counterAt, hlast, hnext]
        decide
      · have hnext : (n + 1) % 4294967295 = n % 4294967295 + 1 := by omega
        have hne : UInt32.ofNat (n % 4294967295 + 1) ≠ nullCommonHandleID := by
          intro heq
          have hnat := congrArg UInt32.toNat heq
          rw [UInt32.toNat_ofNat'] at hnat
          have hnull : nullCommonHandleID.toNat = 4294967295 := rfl
          omega
        rw [handleAt, counterAt, counterAt, hnext, drawID, if_pos hne,
          UInt32.ofNat_add (n % 4294967295 + 1) 1]
        rfl

/-- A number is drawn again only after all the others. -/
theorem handleAt_eq {m n : Nat} (h : handleAt m = handleAt n) (hlt : m < n) :
    m + 4294967295 ≤ n := by
  have hnat := congrArg UInt32.toNat h
  rw [handleAt, handleAt, UInt32.toNat_ofNat', UInt32.toNat_ofNat'] at hnat
  omega

end Utilpp
