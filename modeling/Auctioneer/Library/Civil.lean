import Mathlib.Algebra.Order.Ring.Int

/-!
The proleptic Gregorian calendar: day numbers counted from 1 January 1970, and
the civil date of each. Years are counted from 1 March, so that a leap day ends
its year, and grouped into eras of 400 such years.
-/

structure Civil where
  year : ℤ
  month : ℤ
  day : ℤ
deriving DecidableEq, Repr

namespace Civil

def eraDays : ℤ := 146097

/-- The days from 1 March of year 0 to 1 January 1970. -/
def epochShift : ℤ := 719468

/-- A day of an era as year of the era and day of that year. -/
structure YearDay where
  year : ℤ
  day : ℤ

def YearDay.ofEraDay (dayOfEra : ℤ) : YearDay :=
  let century := min (dayOfEra / 36524) 3
  let dayOfCentury := dayOfEra - 36524 * century
  let cycle := dayOfCentury / 1461
  let dayOfCycle := dayOfCentury % 1461
  let year := min (dayOfCycle / 365) 3
  { year := 100 * century + 4 * cycle + year
    day := dayOfCycle - 365 * year }

def YearDay.toEraDay (date : YearDay) : ℤ :=
  date.year * 365 + date.year / 4 - date.year / 100 + date.day

theorem YearDay.ofEraDay_spec (dayOfEra : ℤ) (hlow : 0 ≤ dayOfEra)
    (hhigh : dayOfEra < eraDays) :
    (0 ≤ (ofEraDay dayOfEra).year ∧ (ofEraDay dayOfEra).year < 400) ∧
      (0 ≤ (ofEraDay dayOfEra).day ∧ (ofEraDay dayOfEra).day ≤ 365) ∧
      (ofEraDay dayOfEra).toEraDay = dayOfEra := by
  simp only [ofEraDay, toEraDay, eraDays] at *
  generalize hcentury : min (dayOfEra / 36524) 3 = century
  have hc : 0 ≤ century ∧ century ≤ 3 := by omega
  have hdoc : 0 ≤ dayOfEra - 36524 * century ∧ dayOfEra - 36524 * century ≤ 36524 := by omega
  generalize hdayOfCentury : dayOfEra - 36524 * century = dayOfCentury at *
  generalize hcycle : dayOfCentury / 1461 = cycle
  have hq : 0 ≤ cycle ∧ cycle ≤ 24 := by omega
  generalize hyear : min (dayOfCentury % 1461 / 365) 3 = year
  have hy : 0 ≤ year ∧ year ≤ 3 := by omega
  have hquarter : (100 * century + 4 * cycle + year) / 4 = 25 * century + cycle := by omega
  have hhundred : (100 * century + 4 * cycle + year) / 100 = century := by omega
  refine ⟨by omega, by omega, ?_⟩
  rw [hquarter, hhundred]
  omega

/-- The month, counted from March, and the day of the month. -/
def monthFromMarch (dayOfYear : ℤ) : ℤ := (5 * dayOfYear + 2) / 153

def daysBefore (monthFromMarch : ℤ) : ℤ := (153 * monthFromMarch + 2) / 5

/-- The civil date of a day of a year that starts in March. -/
def ofYearDay (era : ℤ) (date : YearDay) : Civil :=
  let fromMarch := monthFromMarch date.day
  let month := if fromMarch < 10 then fromMarch + 3 else fromMarch - 9
  { year := date.year + era * 400 + (if month ≤ 2 then 1 else 0)
    month
    day := date.day - daysBefore fromMarch + 1 }

def marchYear (date : Civil) : ℤ := date.year - (if date.month ≤ 2 then 1 else 0)

def toYearDay (date : Civil) : YearDay :=
  ⟨date.marchYear % 400, daysBefore ((date.month + 9) % 12) + date.day - 1⟩

theorem marchYear_ofYearDay (era : ℤ) (date : YearDay) :
    (ofYearDay era date).marchYear = date.year + era * 400 := by
  simp only [marchYear, ofYearDay]
  omega

theorem toYearDay_ofYearDay (era : ℤ) (date : YearDay)
    (hyear : 0 ≤ date.year ∧ date.year < 400) (hday : 0 ≤ date.day ∧ date.day ≤ 365) :
    (ofYearDay era date).toYearDay = date := by
  have hmonth : 0 ≤ monthFromMarch date.day ∧ monthFromMarch date.day ≤ 11 := by
    simp only [monthFromMarch]
    omega
  have hfrom : ((ofYearDay era date).month + 9) % 12 = monthFromMarch date.day := by
    simp only [ofYearDay]
    split_ifs <;> omega
  simp only [toYearDay, hfrom, marchYear_ofYearDay]
  congr 1
  · omega
  · simp only [ofYearDay]
    omega

def ofDay (day : ℤ) : Civil :=
  let shifted := day + epochShift
  ofYearDay (shifted / eraDays) (YearDay.ofEraDay (shifted % eraDays))

def toDay (date : Civil) : ℤ :=
  date.marchYear / 400 * eraDays + date.toYearDay.toEraDay - epochShift

/-- A civil date that exists: one that some day number has. -/
def Valid (date : Civil) : Prop := ofDay (toDay date) = date

instance (date : Civil) : Decidable date.Valid := inferInstanceAs (Decidable (_ = _))

theorem toDay_ofDay (day : ℤ) : toDay (ofDay day) = day := by
  have hlow := Int.emod_nonneg (day + epochShift) (by decide : eraDays ≠ 0)
  have hhigh := Int.emod_lt_of_pos (day + epochShift) (by decide : 0 < eraDays)
  obtain ⟨hyear, hday, hback⟩ := YearDay.ofEraDay_spec _ hlow hhigh
  have hsplit := Int.emod_add_mul_ediv (day + epochShift) eraDays
  have hera (y e : ℤ) (hy : 0 ≤ y ∧ y < 400) : (y + e * 400) / 400 = e := by omega
  simp only [toDay, ofDay, marchYear_ofYearDay, toYearDay_ofYearDay _ _ hyear hday, hback,
    hera _ _ hyear]
  rw [mul_comm]
  omega

/-- Every date the calendar prints exists. -/
theorem ofDay_valid (day : ℤ) : (ofDay day).Valid := by
  simp only [Valid, toDay_ofDay]

theorem ofDay_bounds (day : ℤ) :
    (1 ≤ (ofDay day).month ∧ (ofDay day).month ≤ 12) ∧ 1 ≤ (ofDay day).day := by
  have hlow := Int.emod_nonneg (day + epochShift) (by decide : eraDays ≠ 0)
  have hhigh := Int.emod_lt_of_pos (day + epochShift) (by decide : 0 < eraDays)
  obtain ⟨_, hday, _⟩ := YearDay.ofEraDay_spec _ hlow hhigh
  simp only [ofDay, ofYearDay, monthFromMarch, daysBefore]
  generalize (YearDay.ofEraDay ((day + epochShift) % eraDays)).day = d at *
  refine ⟨?_, by omega⟩
  split_ifs <;> omega

/-- 1 January of the year 1. -/
def firstDay : ℤ := -719162

/-- The years from 1 on are the days from the first of them on. -/
theorem one_le_year_iff (day : ℤ) : 1 ≤ (ofDay day).year ↔ firstDay ≤ day := by
  have hlow := Int.emod_nonneg (day + epochShift) (by decide : eraDays ≠ 0)
  have hhigh := Int.emod_lt_of_pos (day + epochShift) (by decide : 0 < eraDays)
  have hsplit := Int.emod_add_mul_ediv (day + epochShift) eraDays
  obtain ⟨hyear, hday, hback⟩ := YearDay.ofEraDay_spec _ hlow hhigh
  simp only [ofDay, ofYearDay, monthFromMarch, YearDay.toEraDay] at *
  generalize YearDay.ofEraDay ((day + epochShift) % eraDays) = date at *
  generalize (day + epochShift) % eraDays = dayOfEra at *
  generalize (day + epochShift) / eraDays = era at *
  simp only [eraDays, epochShift, firstDay] at *
  rcases lt_trichotomy era 0 with hbefore | rfl | hafter
  · refine iff_of_false ?_ (by omega)
    split_ifs <;> omega
  · -- the first era: only the last two months of its year 0 are of the year 1
    rcases hyear.1.eq_or_lt with hzero | hpos
    · rw [← hzero] at hback ⊢
      split_ifs <;> omega
    · refine iff_of_true ?_ (by omega)
      split_ifs <;> omega
  · refine iff_of_true ?_ (by omega)
    split_ifs <;> omega

end Civil
