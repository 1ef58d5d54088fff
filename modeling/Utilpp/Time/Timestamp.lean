import Utilpp.Lib.Calendar
import Utilpp.Lib.Widths

/-!
# Calendar time

`timestamp_to_tm` converts a number of seconds since 1970 to a date and a time of day, in integers
of the widths that the source has. `timestamp_to_tm` says that the date is the one that the number
of days stands for in the proleptic Gregorian calendar, up to the last year of 32 bits.
-/

namespace Utilpp.Time

open Lib Lib.Calendar

namespace Timestamp

/-- The fields of a `struct tm` that are computed; `tm_isdst` is 0. -/
structure Tm where
  sec : Int32
  min : Int32
  hour : Int32
  mday : Int32
  mon : Int32
  year : Int32
  wday : Int32
  yday : Int32
  isdst : Int32
  deriving DecidableEq, Repr

/-! ## The variables of the source -/

def daysSinceEpoch (ts : UInt64) : Int64 := (ts / 86400).toInt64

def secsOfDay (ts : UInt64) : UInt32 := (ts % 86400).toUInt32

def z (daysSinceEpoch : Int64) : Int64 := daysSinceEpoch + 719468

def era (z : Int64) : Int64 := (if z ≥ 0 then z else z - 146096) / 146097

def doe (z : Int64) : UInt32 := (z - era z * 146097).toUInt64.toUInt32

def yoe (doe : UInt32) : UInt32 := (doe - doe / 1460 + doe / 36524 - doe / 146096) / 365

def y (z : Int64) : Int64 := (yoe (doe z)).toUInt64.toInt64 + era z * 400

def doy (doe : UInt32) : UInt32 := doe - (365 * yoe doe + yoe doe / 4 - yoe doe / 100)

def mp (doy : UInt32) : UInt32 := (5 * doy + 2) / 153

def d (doy : UInt32) : UInt32 := doy - (153 * mp doy + 2) / 5 + 1

/-- The month from 1 on; January and February come from a wrap-around. -/
def m (doy : UInt32) : UInt32 := mp doy + (if mp doy < 10 then 3 else -9)

def year (z : Int64) : Int64 := y z + (if m (doy (doe z)) ≤ 2 then 1 else 0)

def daysBeforeMonth : List Int32 := [0, 31, 59, 90, 120, 151, 181, 212, 243, 273, 304, 334]

def leap (m : UInt32) (year : Int64) : Bool :=
  decide (m > 2) && (year % 4 == 0 && year % 100 != 0 || year % 400 == 0)

/-- `timestamp_to_tm` -/
def timestampToTm (ts : UInt64) : Tm :=
  let days := daysSinceEpoch ts
  let secs := secsOfDay ts
  let z := z days
  let doy := doy (doe z)
  let m := m doy
  let year := year z
  { sec := (secs % 60).toInt32
    min := (secs / 60 % 60).toInt32
    hour := (secs / 3600).toInt32
    mday := (d doy).toInt32
    mon := (m - 1).toInt32
    year := (year - 1900).toInt32
    wday := (((days + 4) % 7 + 7) % 7).toInt32
    yday := daysBeforeMonth.getD (m - 1).toNat 0 + (d doy).toInt32 - 1 +
      (if leap m year then 1 else 0)
    isdst := 0 }

/-- The fields are those of the time that is `ts` seconds after the start of 1970 in UTC. -/
structure IsUtc (ts : UInt64) (tm : Tm) : Prop where
  back : daysFromCivil (tm.year.toInt + 1900) (tm.mon.toInt + 1) tm.mday.toInt * 86400 +
    tm.hour.toInt * 3600 + tm.min.toInt * 60 + tm.sec.toInt = ts.toNat
  mon : 0 ≤ tm.mon.toInt ∧ tm.mon.toInt ≤ 11
  mday : 1 ≤ tm.mday.toInt ∧
    tm.mday.toInt ≤ monthLength (tm.year.toInt + 1900) (tm.mon.toInt + 1)
  hour : 0 ≤ tm.hour.toInt ∧ tm.hour.toInt ≤ 23
  min : 0 ≤ tm.min.toInt ∧ tm.min.toInt ≤ 59
  sec : 0 ≤ tm.sec.toInt ∧ tm.sec.toInt ≤ 59
  wday : tm.wday.toInt = (ts.toNat / 86400 + 4) % 7
  yday : tm.yday.toInt = ts.toNat / 86400 - daysFromCivil (tm.year.toInt + 1900) 1 1

/-! ## The variables -/

variable {ts : UInt64} {day : Nat}

theorem toInt_daysSinceEpoch : (daysSinceEpoch ts).toInt = (ts.toNat / 86400 : Nat) := by
  have hlt := ts.toNat_lt
  have hdiv : (ts / 86400).toNat = ts.toNat / 86400 := UInt64.toNat_div _ _
  rw [daysSinceEpoch, toInt_toInt64 (by rw [hdiv]; omega), hdiv]

theorem toInt_z {days : Int64} (hdays : days.toInt = day) (hday : day < 2 ^ 48) :
    (z days).toInt = (day + 719468 : Nat) := by
  have hconst : (719468 : Int64).toInt = 719468 := rfl
  rw [z, Int64.toInt_add, hdays, hconst, bmod64 (by omega)]
  rfl

theorem toInt_era {z : Int64} (hz : z.toInt = day) : (era z).toInt = (day / 146097 : Nat) := by
  have hconst : (146097 : Int64).toInt = 146097 := rfl
  have hpos : z ≥ 0 := Int64.le_iff_toInt_le.mpr (by rw [hz]; exact Int.natCast_nonneg day)
  have hmin : z ≠ Int64.minValue := by
    rintro rfl
    exact absurd hz (by show (-(2 ^ 63) : Int) ≠ day; omega)
  rw [era, if_pos hpos, Int64.toInt_div_of_ne_left _ _ hmin, hz, hconst,
    Int.tdiv_eq_ediv_of_nonneg (Int.natCast_nonneg day)]
  rfl

theorem toNat_doe {z : Int64} (hz : z.toInt = day) (hday : day < 2 ^ 49) :
    (doe z).toNat = day % 146097 := by
  have hconst : (146097 : Int64).toInt = 146097 := rfl
  have hmul : (era z * 146097).toInt = (day / 146097 : Nat) * 146097 := by
    rw [Int64.toInt_mul, toInt_era hz, hconst, bmod64 (by omega)]
  have hsub : (z - era z * 146097).toInt = (day % 146097 : Nat) := by
    rw [Int64.toInt_sub, hmul, hz, bmod64 (by omega)]
    omega
  rw [doe, UInt64.toNat_toUInt32, toNat_toUInt64 hsub]
  omega

theorem toNat_sub {a b : UInt32} (h : b.toNat ≤ a.toNat) : (a - b).toNat = a.toNat - b.toNat :=
  UInt32.toNat_sub_of_le _ _ (UInt32.le_iff_toNat_le.mpr h)

theorem toNat_add {a b : UInt32} (h : a.toNat + b.toNat < 2 ^ 32) :
    (a + b).toNat = a.toNat + b.toNat := by
  rw [UInt32.toNat_add, Nat.mod_eq_of_lt h]

theorem toNat_mul {a b : UInt32} (h : a.toNat * b.toNat < 2 ^ 32) :
    (a * b).toNat = a.toNat * b.toNat := by
  rw [UInt32.toNat_mul, Nat.mod_eq_of_lt h]

theorem toNat_yoe {doe : UInt32} (h : doe.toNat < 146097) :
    (yoe doe).toNat = yearOfEra doe.toNat := by
  have hcycles : (doe / 1460).toNat = doe.toNat / 1460 := UInt32.toNat_div _ _
  have hcenturies : (doe / 36524).toNat = doe.toNat / 36524 := UInt32.toNat_div _ _
  have heras : (doe / 146096).toNat = doe.toNat / 146096 := UInt32.toNat_div _ _
  have hless : (doe - doe / 1460).toNat = doe.toNat - doe.toNat / 1460 := by
    rw [toNat_sub (by omega), hcycles]
  have hmore : (doe - doe / 1460 + doe / 36524).toNat =
      doe.toNat - doe.toNat / 1460 + doe.toNat / 36524 := by
    rw [toNat_add (by omega), hless, hcenturies]
  rw [yoe, UInt32.toNat_div, toNat_sub (by omega), hmore, heras]
  rfl

theorem toNat_doy {doe : UInt32} (h : doe.toNat < 146097) :
    (doy doe).toNat = doe.toNat - yearStart (yearOfEra doe.toNat) := by
  obtain ⟨hlt, hle, -⟩ := year_of_era h
  have hyoe := toNat_yoe h
  have hcycles : (yoe doe / 4).toNat = yearOfEra doe.toNat / 4 := by
    rw [UInt32.toNat_div, hyoe]
    rfl
  have hcenturies : (yoe doe / 100).toNat = yearOfEra doe.toNat / 100 := by
    rw [UInt32.toNat_div, hyoe]
    rfl
  have hdays : (365 * yoe doe).toNat = 365 * yearOfEra doe.toNat := by
    have hconst : (365 : UInt32).toNat = 365 := rfl
    rw [toNat_mul (by rw [hconst, hyoe]; omega), hconst, hyoe]
  have hmore : (365 * yoe doe + yoe doe / 4).toNat =
      365 * yearOfEra doe.toNat + yearOfEra doe.toNat / 4 := by
    rw [toNat_add (by omega), hdays, hcycles]
  have hstart : (365 * yoe doe + yoe doe / 4 - yoe doe / 100).toNat =
      yearStart (yearOfEra doe.toNat) := by
    rw [toNat_sub (by omega), hmore, hcenturies]
    rfl
  rw [doy, toNat_sub (hstart ▸ hle), hstart]

section Months

variable {doy : UInt32}

theorem toNat_mp (h : doy.toNat ≤ 365) : (mp doy).toNat = monthOfYear doy.toNat := by
  have hfive : (5 : UInt32).toNat = 5 := rfl
  have htwo : (2 : UInt32).toNat = 2 := rfl
  have hmul : (5 * doy).toNat = 5 * doy.toNat := by
    rw [toNat_mul (by rw [hfive]; omega), hfive]
  rw [mp, UInt32.toNat_div, toNat_add (by rw [hmul, htwo]; omega), hmul]
  rfl

theorem toNat_d (h : doy.toNat ≤ 365) :
    (d doy).toNat = doy.toNat - monthStart (monthOfYear doy.toNat) + 1 := by
  obtain ⟨hmp, hstart, -⟩ := month_of_year h
  have hone : (1 : UInt32).toNat = 1 := rfl
  have htwo : (2 : UInt32).toNat = 2 := rfl
  have hmul : (153 * mp doy).toNat = 153 * monthOfYear doy.toNat := by
    have hconst : (153 : UInt32).toNat = 153 := rfl
    rw [toNat_mul (by rw [hconst, toNat_mp h]; omega), hconst, toNat_mp h]
  have hmonth : ((153 * mp doy + 2) / 5).toNat = monthStart (monthOfYear doy.toNat) := by
    rw [UInt32.toNat_div, toNat_add (by rw [hmul, htwo]; omega), hmul]
    rfl
  have hsub : (doy - (153 * mp doy + 2) / 5).toNat =
      doy.toNat - monthStart (monthOfYear doy.toNat) := by
    rw [toNat_sub (hmonth ▸ hstart), hmonth]
  rw [d, toNat_add (by rw [hsub, hone]; omega), hsub, hone]

theorem toNat_m (h : doy.toNat ≤ 365) : (m doy).toNat = civilMonth (monthOfYear doy.toNat) := by
  obtain ⟨hmp, -⟩ := month_of_year h
  have hten : mp doy < 10 ↔ monthOfYear doy.toNat < 10 := by
    rw [UInt32.lt_iff_toNat_lt, toNat_mp h]
    rfl
  rw [m, UInt32.toNat_add, toNat_mp h, civilMonth]
  by_cases hearly : monthOfYear doy.toNat < 10
  · rw [if_pos (hten.mpr hearly), if_pos hearly]
    show (monthOfYear doy.toNat + 3) % 2 ^ 32 = _
    omega
  · rw [if_neg (mt hten.mp hearly), if_neg hearly]
    show (monthOfYear doy.toNat + 4294967287) % 2 ^ 32 = _
    omega

end Months

theorem toInt_y {z : Int64} (hz : z.toInt = day) (hday : day < 2 ^ 49) :
    (y z).toInt = yearOfEra (day % 146097) + (day / 146097 : Nat) * 400 := by
  have hdoe := toNat_doe hz hday
  have hlt : day % 146097 < 146097 := Nat.mod_lt _ (by decide)
  have hyoe : (yoe (doe z)).toUInt64.toNat = yearOfEra (day % 146097) := by
    rw [UInt32.toNat_toUInt64, toNat_yoe (hdoe ▸ hlt), hdoe]
  have hsmall := (year_of_era hlt).1
  have hmul : (era z * 400).toInt = (day / 146097 : Nat) * 400 := by
    have hconst : (400 : Int64).toInt = 400 := rfl
    rw [Int64.toInt_mul, toInt_era hz, hconst, bmod64 (by omega)]
  have hyear : (yoe (doe z)).toUInt64.toInt64.toInt = yearOfEra (day % 146097) := by
    rw [toInt_toInt64 (by omega), hyoe]
  rw [y, Int64.toInt_add, hyear, hmul, bmod64 (by omega)]

theorem toInt_year {z : Int64} (hz : z.toInt = day) (hday : day < 2 ^ 49) :
    (year z).toInt = civilYear (yearOfEra (day % 146097) + (day / 146097 : Nat) * 400)
      (monthOfYear (day % 146097 - yearStart (yearOfEra (day % 146097)))) := by
  have hdoe := toNat_doe hz hday
  have hlt : day % 146097 < 146097 := Nat.mod_lt _ (by decide)
  obtain ⟨hsmall, -, hdoy, -⟩ := year_of_era hlt
  have hdoy' := toNat_doy (hdoe ▸ hlt)
  rw [hdoe] at hdoy'
  have hm := toNat_m (hdoy' ▸ hdoy)
  rw [hdoy'] at hm
  have hmp := (month_of_year hdoy).1
  have htwo : m (doy (doe z)) ≤ 2 ↔ ¬ monthOfYear
      (day % 146097 - yearStart (yearOfEra (day % 146097))) < 10 := by
    rw [UInt32.le_iff_toNat_le, hm, civilMonth]
    show _ ≤ 2 ↔ _
    split
    · omega
    · omega
  rw [year, Int64.toInt_add, toInt_y hz hday, civilYear]
  generalize yearOfEra (day % 146097) = yoe at hsmall htwo ⊢
  generalize monthOfYear (day % 146097 - yearStart yoe) = mp at htwo ⊢
  by_cases hearly : mp < 10
  · rw [if_neg (by rw [htwo]; exact not_not.mpr hearly), if_pos hearly]
    show Int.bmod (_ + 0) _ = _
    rw [bmod64 (by omega), Int.add_zero]
  · rw [if_pos (htwo.mpr hearly), if_neg hearly]
    show Int.bmod (_ + 1) _ = _
    rw [bmod64 (by omega)]

theorem leap_iff {m : UInt32} {year : Int64} (hyear : 0 ≤ year.toInt) :
    leap m year = true ↔ 2 < m.toNat ∧ IsLeap year.toInt := by
  have hmod : ∀ n : Int64, 0 < n.toInt → (year % n == 0) = decide (year.toInt % n.toInt = 0) := by
    intro n hn
    rw [Bool.beq_eq_decide_eq, decide_eq_decide, ← Int64.toInt_inj, Int64.toInt_mod,
      Int.tmod_eq_emod_of_nonneg hyear]
    rfl
  have hfour := hmod 4 (by decide)
  have hhundred := hmod 100 (by decide)
  have hfourhundred := hmod 400 (by decide)
  unfold leap IsLeap bne
  rw [hfour, hhundred, hfourhundred]
  simp only [Bool.and_eq_true, Bool.or_eq_true, Bool.not_eq_true', decide_eq_true_eq,
    decide_eq_false_iff_not, gt_iff_lt, UInt32.lt_iff_toNat_lt]
  rfl

theorem toInt_daysBeforeMonth {month : Nat} (hpos : 1 ≤ month) (hmonth : month ≤ 12) :
    (daysBeforeMonth.getD (month - 1) 0).toInt =
      if (month : Int) ≤ 2 then 31 * ((month : Int) - 1)
      else 59 + (153 * ((month : Int) - 3) + 2) / 5 := by
  interval_cases month
  all_goals rfl

theorem toInt_wday {days : Int64} (hdays : days.toInt = day) (hday : day < 2 ^ 48) :
    (((days + 4) % 7 + 7) % 7).toInt32.toInt = ((day : Int) + 4) % 7 := by
  have hseven : (7 : Int64).toInt = 7 := rfl
  have hfour : (4 : Int64).toInt = 4 := rfl
  have hsum : (days + 4).toInt = day + 4 := by
    rw [Int64.toInt_add, hdays, hfour, bmod64 (by omega)]
  have hrest : ((days + 4) % 7).toInt = ((day : Int) + 4) % 7 := by
    rw [Int64.toInt_mod, hsum, hseven, Int.tmod_eq_emod_of_nonneg (by omega)]
  have hmore : ((days + 4) % 7 + 7).toInt = ((day : Int) + 4) % 7 + 7 := by
    rw [Int64.toInt_add, hrest, hseven, bmod64 (by omega)]
  rw [Int64.toInt_toInt32, Int64.toInt_mod, hmore, hseven, Int.tmod_eq_emod_of_nonneg (by omega),
    bmod32 (by omega)]
  omega

/-- The year, the month and the day of the month are the date of the day. -/
theorem exists_civil {z : Int64} (hz : z.toInt = (day + 719468 : Nat)) (hday : day < 2 ^ 48) :
    ∃ month mday : Nat, (m (doy (doe z))).toNat = month ∧ (d (doy (doe z))).toNat = mday ∧
      0 ≤ (year z).toInt ∧ 1 ≤ month ∧ month ≤ 12 ∧ 1 ≤ mday ∧
      (mday : Int) ≤ monthLength (year z).toInt month ∧
      daysFromCivil (year z).toInt month mday = day := by
  have hdoe := toNat_doe hz (by omega)
  have hlt : (day + 719468) % 146097 < 146097 := Nat.mod_lt _ (by decide)
  obtain ⟨hyoe, hstart, hdoy, hleap⟩ := year_of_era hlt
  have hdoy' := toNat_doy (hdoe ▸ hlt)
  rw [hdoe] at hdoy'
  obtain ⟨hmp, hmonth, -⟩ := month_of_year hdoy
  refine ⟨_, _, (toNat_m (hdoy' ▸ hdoy)), (toNat_d (hdoy' ▸ hdoy)), ?_⟩
  rw [toInt_year hz (by omega), hdoy']
  have hlength := @le_monthLength ((day + 719468) / 146097) _ _ hdoy hleap
  refine ⟨?_, ?_, ?_, by omega, hlength, ?_⟩
  · unfold civilYear
    split
    · omega
    · omega
  · unfold civilMonth
    split
    · omega
    · omega
  · unfold civilMonth
    split
    · omega
    · omega
  · rw [daysFromCivil_place hyoe hmp]
    push_cast [Nat.cast_sub hmonth, Nat.cast_sub hstart]
    omega

theorem monthLength_le (year month : Int) : monthLength year month ≤ 31 := by
  unfold monthLength
  split
  · split
    · decide
    · decide
  · split
    · decide
    · decide

section Date

variable {m d : UInt32} {year : Int64} {month mday : Nat}

theorem toInt_mon (hm : m.toNat = month) (hpos : 1 ≤ month) (htwelve : month ≤ 12) :
    (m - 1).toNat = month - 1 ∧ (m - 1).toInt32.toInt = (month : Int) - 1 := by
  have hsub : (m - 1).toNat = month - 1 := by
    rw [toNat_sub (by rw [hm]; exact hpos), hm]
    rfl
  refine ⟨hsub, ?_⟩
  rw [toInt_toInt32 (by rw [hsub]; omega), hsub]
  omega

/-- `tm_yday` is the number of days since the start of the year. -/
theorem toInt_yday (hm : m.toNat = month) (hpos : 1 ≤ month) (htwelve : month ≤ 12)
    (hd : d.toNat = mday) (hone : 1 ≤ mday) (hshort : mday ≤ 31) (hyear : 0 ≤ year.toInt) :
    (daysBeforeMonth.getD (m - 1).toNat 0 + d.toInt32 - 1 +
        (if leap m year then 1 else 0)).toInt =
      daysFromCivil year.toInt month mday - daysFromCivil year.toInt 1 1 := by
  have hmday : d.toInt32.toInt = mday := by
    rw [toInt_toInt32 (by rw [hd]; omega), hd]
  have hbefore := toInt_daysBeforeMonth hpos htwelve
  have hleap : (if leap m year then (1 : Int32) else 0).toInt =
      if 2 < month ∧ IsLeap year.toInt then 1 else 0 := by
    simp only [leap_iff hyear, hm]
    split
    · rfl
    · rfl
  have hconst : (1 : Int32).toInt = 1 := rfl
  rw [(toInt_mon hm hpos htwelve).1, daysFromCivil_sub _ _ _ (by omega)]
  generalize daysBeforeMonth.getD (month - 1) 0 = before at hbefore ⊢
  generalize year.toInt = civil at hleap ⊢
  have hrange : 0 ≤ before.toInt ∧ before.toInt ≤ 334 := by
    rw [hbefore]
    split
    · omega
    · omega
  have hsum : (before + d.toInt32).toInt = before.toInt + mday := by
    rw [Int32.toInt_add, hmday, bmod32 (by omega)]
  have hless : (before + d.toInt32 - 1).toInt = before.toInt + mday - 1 := by
    rw [Int32.toInt_sub, hsum, hconst, bmod32 (by omega)]
  have hextra : (0 : Int) ≤ (if 2 < month ∧ IsLeap civil then 1 else 0) ∧
      (if 2 < month ∧ IsLeap civil then 1 else 0) ≤ (1 : Int) := by
    split
    · decide
    · decide
  rw [Int32.toInt_add, hless, hleap, bmod32 (by omega), hbefore]
  by_cases hlate : 2 < month
  · rw [if_neg (show ¬ (month : Int) ≤ 2 by omega)]
    by_cases hyear : IsLeap civil
    · rw [if_pos ⟨hlate, hyear⟩, if_pos hyear]
      omega
    · rw [if_neg (fun hboth => hyear hboth.2), if_neg hyear]
      omega
  · rw [if_pos (show (month : Int) ≤ 2 by omega), if_neg (fun hboth => hlate hboth.1)]
    omega

/-- The time of day. -/
theorem toInt_secs {secs : UInt32} (h : secs.toNat < 86400) :
    (secs % 60).toInt32.toInt = secs.toNat % 60 ∧
      (secs / 60 % 60).toInt32.toInt = secs.toNat / 60 % 60 ∧
      (secs / 3600).toInt32.toInt = secs.toNat / 3600 := by
  have hsec : (secs % 60).toNat = secs.toNat % 60 := UInt32.toNat_mod _ _
  have hmin : (secs / 60 % 60).toNat = secs.toNat / 60 % 60 := by
    rw [UInt32.toNat_mod, UInt32.toNat_div]
    rfl
  have hhour : (secs / 3600).toNat = secs.toNat / 3600 := UInt32.toNat_div _ _
  refine ⟨?_, ?_, ?_⟩
  · rw [toInt_toInt32 (by omega), hsec]
    rfl
  · rw [toInt_toInt32 (by omega), hmin]
    rfl
  · rw [toInt_toInt32 (by omega), hhour]
    rfl

theorem toInt_year_sub (hyear : 0 ≤ year.toInt) (hlate : year.toInt < 2 ^ 31) :
    (year - 1900).toInt32.toInt = year.toInt - 1900 := by
  have hconst : (1900 : Int64).toInt = 1900 := rfl
  rw [Int64.toInt_toInt32, Int64.toInt_sub, hconst, bmod64 (by omega), bmod32 (by omega)]

end Date

/-- A year that begins behind the first day of another one does not come before it. -/
theorem lt_of_daysFromCivil {year : Int} {month mday : Nat} {limit : Int} (hpos : 1 ≤ month)
    (htwelve : month ≤ 12) (hone : 1 ≤ mday)
    (h : daysFromCivil year month mday < daysFromCivil limit 1 1) : year < limit := by
  by_contra hnot
  have hsub := daysFromCivil_sub year month mday (by omega)
  have hnonneg : 0 ≤ daysFromCivil year month mday - daysFromCivil year 1 1 := by
    rw [hsub]
    split
    · omega
    · split
      · omega
      · omega
  have hmono : daysFromCivil limit 1 1 ≤ daysFromCivil year 1 1 := by
    rw [daysFromCivil_eq, daysFromCivil_eq]
    simp only [show (1 : Int) ≤ 2 by decide, if_true]
    omega
  omega

/-- Before the first day of the year `2 ^ 31` the result is the date and time in UTC. -/
theorem timestamp_to_tm (ts : UInt64)
    (hyear : ((ts.toNat / 86400 : Nat) : Int) < daysFromCivil (2 ^ 31) 1 1) :
    IsUtc ts (timestampToTm ts) := by
  have hlt := ts.toNat_lt
  have hdays := @toInt_daysSinceEpoch ts
  have hsmall : ts.toNat / 86400 < 2 ^ 48 := by omega
  obtain ⟨month, mday, hm, hd, hnonneg, hpos, htwelve, hone, hlength, hback⟩ :=
    exists_civil (toInt_z hdays hsmall) hsmall
  have hlate := lt_of_daysFromCivil hpos htwelve hone (hback ▸ hyear)
  have hshort := hlength.trans (monthLength_le _ _)
  have hsecs : (secsOfDay ts).toNat = ts.toNat % 86400 := by
    have hmod : (ts % 86400).toNat = ts.toNat % 86400 := UInt64.toNat_mod _ _
    rw [secsOfDay, UInt64.toNat_toUInt32, hmod]
    omega
  obtain ⟨hsec, hmin, hhour⟩ := toInt_secs (hsecs ▸ Nat.mod_lt _ (by decide))
  have hwday := toInt_wday hdays hsmall
  have hyday := toInt_yday hm hpos htwelve hd hone (by omega) hnonneg
  have hyear : (timestampToTm ts).year.toInt + 1900 = (year (z (daysSinceEpoch ts))).toInt := by
    show (year (z (daysSinceEpoch ts)) - 1900).toInt32.toInt + 1900 = _
    rw [toInt_year_sub hnonneg hlate, Int.sub_add_cancel]
  have hmon : (timestampToTm ts).mon.toInt + 1 = month := by
    show (m (doy (doe (z (daysSinceEpoch ts)))) - 1).toInt32.toInt + 1 = _
    rw [(toInt_mon hm hpos htwelve).2, Int.sub_add_cancel]
  have hmday : (timestampToTm ts).mday.toInt = mday := by
    show (d (doy (doe (z (daysSinceEpoch ts))))).toInt32.toInt = _
    rw [toInt_toInt32 (by omega), hd]
  have hsec' : (timestampToTm ts).sec.toInt = _ := hsec
  have hmin' : (timestampToTm ts).min.toInt = _ := hmin
  have hhour' : (timestampToTm ts).hour.toInt = _ := hhour
  have hwday' : (timestampToTm ts).wday.toInt = _ := hwday
  have hyday' : (timestampToTm ts).yday.toInt = _ := hyday
  rw [hback, ← hyear] at hyday'
  rw [← hyear] at hback hlength
  rw [hsecs] at hsec' hmin' hhour'
  generalize timestampToTm ts = tm at *
  refine ⟨?_, by omega, ?_, by omega, by omega, by omega, by omega, ?_⟩
  · rw [hmon, hmday, hback]
    omega
  · rw [hmon, hmday]
    exact ⟨by omega, hlength⟩
  · rw [hyday']
    rfl

/-- One second before the end of 29 February 2000. -/
theorem timestamp_to_tm_leap_day : IsUtc 951868799 (timestampToTm 951868799) :=
  timestamp_to_tm 951868799 (by decide)

end Timestamp

end Utilpp.Time
