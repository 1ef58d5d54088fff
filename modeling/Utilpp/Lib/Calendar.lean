import Mathlib.Algebra.Ring.Int.Defs
import Mathlib.Tactic.IntervalCases

/-!
# The proleptic Gregorian calendar

Days are counted from 1 January 1970. `daysFromCivil` is the number of days from there to a date;
it counts years from March on, so that the leap day is the last day of a year, in eras of 400
years. The other direction divides the days of an era into years (`year_of_era`) and the days of a
year into months (`month_of_year`).
-/

namespace Utilpp.Lib.Calendar

def IsLeap (year : Int) : Prop := year % 4 = 0 ∧ year % 100 ≠ 0 ∨ year % 400 = 0

instance (year : Int) : Decidable (IsLeap year) := inferInstanceAs (Decidable (_ ∨ _))

/-- The number of days of a month. -/
def monthLength (year month : Int) : Int :=
  if month = 2 then if IsLeap year then 29 else 28
  else if month = 4 ∨ month = 6 ∨ month = 9 ∨ month = 11 then 30
  else 31

/-- The number of days from 1 January 1970 to a date. -/
def daysFromCivil (year month day : Int) : Int :=
  let y := if month ≤ 2 then year - 1 else year
  let era := y / 400
  let yoe := y - era * 400
  let doy := (153 * (if 2 < month then month - 3 else month + 9) + 2) / 5 + day - 1
  let doe := yoe * 365 + yoe / 4 - yoe / 100 + doy
  era * 146097 + doe - 719468

/-- Without the eras. -/
theorem daysFromCivil_eq (year month day : Int) :
    daysFromCivil year month day =
      365 * (if month ≤ 2 then year - 1 else year) + (if month ≤ 2 then year - 1 else year) / 4 -
        (if month ≤ 2 then year - 1 else year) / 100 +
        (if month ≤ 2 then year - 1 else year) / 400 +
        ((153 * (if 2 < month then month - 3 else month + 9) + 2) / 5 + day - 1) - 719468 := by
  unfold daysFromCivil
  dsimp only
  omega

example : daysFromCivil 1970 1 1 = 0 := by decide

/-! ## Years of an era -/

/-- The year in which a day of an era is. -/
def yearOfEra (doe : Nat) : Nat := (doe - doe / 1460 + doe / 36524 - doe / 146096) / 365

/-- The days of an era before one of its years. -/
def yearStart (yoe : Nat) : Nat := 365 * yoe + yoe / 4 - yoe / 100

/-- A day of an era is in a century, in a cycle of four years and in a year. -/
theorem exists_century {doe : Nat} (h : doe < 146097) :
    ∃ c g a doy, doe = 36524 * c + 1461 * g + 365 * a + doy ∧ c < 4 ∧ g < 25 ∧ a < 4 ∧
      doy ≤ 365 ∧ (doy = 365 → a = 3) ∧ (1461 * g + 365 * a + doy < 36524 ∨ c = 3) := by
  obtain ⟨c, rest, hdoe, hc, hrest⟩ : ∃ c rest, doe = 36524 * c + rest ∧ c < 4 ∧
      (rest < 36524 ∨ c = 3 ∧ rest = 36524) :=
    ⟨min (doe / 36524) 3, doe - 36524 * min (doe / 36524) 3, by omega⟩
  obtain ⟨g, left, hrest', hg, hleft⟩ : ∃ g left, rest = 1461 * g + left ∧ g < 25 ∧ left < 1461 :=
    ⟨rest / 1461, rest % 1461, by omega⟩
  obtain ⟨a, doy, hleft', ha, hdoy, hlast⟩ : ∃ a doy, left = 365 * a + doy ∧ a < 4 ∧
      doy ≤ 365 ∧ (doy = 365 → a = 3) :=
    ⟨min (left / 365) 3, left - 365 * min (left / 365) 3, by omega⟩
  exact ⟨c, g, a, doy, by omega, hc, hg, ha, hdoy, hlast, by omega⟩

/-- The formula for the year finds it. -/
theorem yearOfEra_eq {c g a doy : Nat} (hc : c < 4) (hg : g < 25) (ha : a < 4) (hdoy : doy ≤ 365)
    (hlast : doy = 365 → a = 3) (hcentury : 1461 * g + 365 * a + doy < 36524 ∨ c = 3) :
    yearOfEra (36524 * c + 1461 * g + 365 * a + doy) = 100 * c + 4 * g + a := by
  unfold yearOfEra
  generalize hdoe : 36524 * c + 1461 * g + 365 * a + doy = doe
  -- the last day of an era counts as one of a fifth century
  have hcenturies : doe / 36524 = doe / 146096 + c := by
    rcases Nat.lt_or_ge (1461 * g + 365 * a + doy) 36524 with hlt | hge
    · have hquotient : doe / 36524 = c := by omega
      have hzero : doe / 146096 = 0 := by omega
      omega
    · obtain rfl : doe = 146096 := by omega
      omega
  obtain ⟨e, he, hcycles⟩ : ∃ e ≤ 1, doe / 1460 = 25 * c + g + e :=
    ⟨doe / 1460 - (25 * c + g), by omega⟩
  have hlate : e = 1 → 269 ≤ doy := by omega
  have hleap : doy = 365 → e = 1 := by omega
  omega

/-- A day of an era is in one of its years; the day behind 365 others is the leap day at the end of
a year, which is in the next one when years start with January. -/
theorem year_of_era {doe : Nat} (h : doe < 146097) :
    yearOfEra doe < 400 ∧ yearStart (yearOfEra doe) ≤ doe ∧
      doe - yearStart (yearOfEra doe) ≤ 365 ∧
      (doe - yearStart (yearOfEra doe) = 365 → IsLeap (yearOfEra doe + 1)) := by
  obtain ⟨c, g, a, doy, rfl, hc, hg, ha, hdoy, hlast, hcentury⟩ := exists_century h
  rw [yearOfEra_eq hc hg ha hdoy hlast hcentury]
  have hcycles : (100 * c + 4 * g + a) / 4 = 25 * c + g := by omega
  have hcenturies : (100 * c + 4 * g + a) / 100 = c := by omega
  have hstart : yearStart (100 * c + 4 * g + a) = 36524 * c + 1461 * g + 365 * a := by
    rw [yearStart, hcycles, hcenturies]
    omega
  rw [hstart]
  refine ⟨by omega, by omega, by omega, fun hlong => ?_⟩
  have ha3 := hlast (by omega)
  unfold IsLeap
  push_cast
  omega

/-! ## Months of a year that starts with March -/

/-- The month in which a day of the year is, counted from March on. -/
def monthOfYear (doy : Nat) : Nat := (5 * doy + 2) / 153

/-- The days of the year before a month. -/
def monthStart (mp : Nat) : Nat := (153 * mp + 2) / 5

theorem month_of_year {doy : Nat} (h : doy ≤ 365) :
    monthOfYear doy ≤ 11 ∧ monthStart (monthOfYear doy) ≤ doy ∧
      doy < monthStart (monthOfYear doy + 1) := by
  unfold monthOfYear monthStart
  omega

/-! ## Dates -/

/-- The number, from January on, of a month that is counted from March on. -/
def civilMonth (mp : Nat) : Nat := if mp < 10 then mp + 3 else mp - 9

/-- The year of a month of the year `y` that starts with March. -/
def civilYear (y : Int) (mp : Nat) : Int := if mp < 10 then y else y + 1

/-- The day of a date that is given by its place in an era. -/
theorem daysFromCivil_place {era yoe mp : Nat} (hyoe : yoe < 400) (hmp : mp ≤ 11) (day : Int) :
    daysFromCivil (civilYear (yoe + era * 400) mp) (civilMonth mp) day =
      era * 146097 + yearStart yoe + monthStart mp + day - 1 - 719468 := by
  have hstart : yoe / 100 ≤ 365 * yoe + yoe / 4 := by omega
  rw [daysFromCivil_eq]
  unfold civilYear civilMonth yearStart monthStart
  push_cast [Nat.cast_sub hstart]
  by_cases hearly : mp < 10
  · simp only [if_pos hearly]
    omega
  · obtain rfl | rfl : mp = 10 ∨ mp = 11 := by omega
    · simp only [Nat.reduceLT, if_false, Nat.reduceSub]
      omega
    · simp only [Nat.reduceLT, if_false, Nat.reduceSub]
      omega

/-- Every month but February ends where the next one starts. -/
theorem monthStart_succ {mp : Nat} (hmp : mp < 11) (year : Int) :
    (monthStart (mp + 1) : Int) = monthStart mp + monthLength year (civilMonth mp) := by
  interval_cases mp
  all_goals rfl

/-- The month has the day, when the leap day is only in leap years. -/
theorem le_monthLength {era yoe doy : Nat} (hdoy : doy ≤ 365)
    (hleap : doy = 365 → IsLeap (yoe + 1)) :
    ((doy - monthStart (monthOfYear doy) + 1 : Nat) : Int) ≤
      monthLength (civilYear (yoe + era * 400) (monthOfYear doy))
        (civilMonth (monthOfYear doy)) := by
  obtain ⟨hmp, hstart, hend⟩ := month_of_year hdoy
  generalize monthOfYear doy = mp at hmp hstart hend ⊢
  by_cases hlast : mp < 11
  · have hnext := monthStart_succ hlast (civilYear (yoe + era * 400) mp)
    omega
  · obtain rfl : mp = 11 := by omega
    have hfebruary : monthStart 11 = 337 := rfl
    show _ ≤ monthLength (yoe + era * 400 + 1) 2
    rw [monthLength, if_pos rfl]
    split
    · omega
    · rename_i hnot
      have hshort : doy ≠ 365 := by
        intro hlong
        have hyear := hleap hlong
        unfold IsLeap at hnot hyear
        omega
      omega

/-- The number of days since the start of the year. -/
theorem daysFromCivil_sub (year month day : Int) (hpos : 1 ≤ month) :
    daysFromCivil year month day - daysFromCivil year 1 1 =
      (if month ≤ 2 then 31 * (month - 1)
        else 59 + (if IsLeap year then 1 else 0) + (153 * (month - 3) + 2) / 5) + day - 1 := by
  rw [daysFromCivil_eq, daysFromCivil_eq]
  unfold IsLeap
  split
  · simp
    omega
  · simp
    omega

end Utilpp.Lib.Calendar
