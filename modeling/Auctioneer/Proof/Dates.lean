import Auctioneer.Model.DateFormatter
import Mathlib.Tactic.IntervalCases

/-!
What a date that one device has printed means to another. The text has minutes,
no time zone and no era.
-/

namespace Auctioneer

namespace DateFormatter

/-- The characters that a date is printed with end every numeral. -/
theorem number_append {digits : List Char} (hdigits : ∀ c ∈ digits, c.isDigit = true) (value : ℕ)
    {next : Char} (hnext : next.isDigit = false) (rest : List Char) :
    number value (digits ++ next :: rest) =
      (((Nat.ofDigitChars 10 digits value : ℕ) : ℤ), next :: rest) := by
  induction digits generalizing value with
  | nil => simp [number, digit, hnext]
  | cons c digits ih =>
      have hc : c.isDigit = true := hdigits c (by simp)
      have htail := ih (fun c' hc' => hdigits c' (by simp [hc']))
        (10 * value + (c.toNat - '0'.toNat))
      simp only [List.cons_append, number, digit, hc, if_true, Nat.ofDigitChars_cons]
      rw [← htail]
      push_cast
      rfl

theorem numeral_append {digits : List Char} (hdigits : ∀ c ∈ digits, c.isDigit = true)
    (hsome : digits ≠ []) {next : Char} (hnext : next.isDigit = false) (rest : List Char) :
    numeral (digits ++ next :: rest) =
      some (((Nat.ofDigitChars 10 digits 0 : ℕ) : ℤ), next :: rest) := by
  have hall := number_append hdigits 0 hnext rest
  cases digits with
  | nil => exact absurd rfl hsome
  | cons c digits =>
      have hc : c.isDigit = true := hdigits c (by simp)
      simp only [List.cons_append, number, digit, hc, if_true] at hall
      simp only [List.cons_append, numeral, digit, hc, if_true, Option.map_some]
      simpa using hall

/-- A number that has been printed is read back. -/
theorem numeral_toString (n : ℕ) {next : Char} (hnext : next.isDigit = false)
    (rest : List Char) :
    numeral ((toString n).toList ++ next :: rest) = some ((n : ℤ), next :: rest) := by
  have hdigits : ∀ c ∈ Nat.toDigits 10 n, c.isDigit = true :=
    fun _ hc => Nat.isDigit_of_mem_toDigits (by decide) (by decide) hc
  have hlist : (toString n).toList = Nat.toDigits 10 n := by simp
  rw [hlist, numeral_append hdigits Nat.toDigits_ne_nil hnext, Nat.ofDigitChars_ten_toDigits]

/-- So are two digits, one printed after the other. -/
theorem numeral_two_digits {tens ones : ℕ} (hones : ones < 10) {next : Char}
    (hnext : next.isDigit = false) (rest : List Char) :
    numeral ((toString tens).toList ++ ((toString ones).toList ++ next :: rest)) =
      some (((10 * tens + ones : ℕ) : ℤ), next :: rest) := by
  have hdigits : ∀ c ∈ Nat.toDigits 10 tens ++ Nat.toDigits 10 ones, c.isDigit = true := by
    intro c hc
    rcases List.mem_append.mp hc with hc | hc <;>
      exact Nat.isDigit_of_mem_toDigits (by decide) (by decide) hc
  have hsome : Nat.toDigits 10 tens ++ Nat.toDigits 10 ones ≠ [] := by simp
  have hvalue : Nat.ofDigitChars 10 (Nat.toDigits 10 tens ++ Nat.toDigits 10 ones) 0 =
      10 * tens + ones := by
    rw [Nat.ofDigitChars_append, Nat.ofDigitChars_ten_toDigits, Nat.toDigits_of_lt_base hones,
      Nat.ofDigitChars_cons_digitChar_of_lt_ten hones, Nat.ofDigitChars_nil]
  have hlist : (toString tens).toList = Nat.toDigits 10 tens := by simp
  have hlist' : (toString ones).toList = Nat.toDigits 10 ones := by simp
  rw [hlist, hlist', ← List.append_assoc, numeral_append hdigits hsome hnext, hvalue]

theorem monthName_append {month : ℤ} (hlow : 1 ≤ month) (hhigh : month ≤ 12)
    (rest : List Char) :
    monthName ((months.getD (month - 1).toNat "").toList ++ rest) = some (month, rest) := by
  interval_cases month <;> rfl

theorem expect_append (token rest : List Char) : expect token (token ++ rest) = some rest := by
  simp [expect]

/-- Reading the text of a date, numeral by numeral. -/
theorem parse_text (day year clock tens ones : ℕ) {month : ℤ} (hmonth : 1 ≤ month)
    (hmonth' : month ≤ 12) (hones : ones < 10) (half : String) (afternoon : ℤ)
    (hhalf : half = " AM" ∧ afternoon = 0 ∨ half = " PM" ∧ afternoon = 12) :
    parse (toString day ++ " " ++ months.getD (month - 1).toNat "" ++ " " ++ toString year ++
      ", " ++ toString clock ++ ":" ++ toString tens ++ toString ones ++ half) =
      if (⟨year, month, day⟩ : Civil).Valid ∧ 1 ≤ clock ∧ clock ≤ 12 ∧
          (10 * tens + ones : ℤ) < 60 then
        some ⟨⟨year, month, day⟩, clock % 12 + afternoon, 10 * tens + ones⟩
      else none := by
  have hspace (rest : List Char) : expect " ".toList (' ' :: rest) = some rest :=
    expect_append [' '] rest
  have hcomma (rest : List Char) : expect ", ".toList (',' :: ' ' :: rest) = some rest :=
    expect_append [',', ' '] rest
  have hcolon (rest : List Char) : expect ":".toList (':' :: rest) = some rest :=
    expect_append [':'] rest
  have htokens : " ".toList = [' '] ∧ ", ".toList = [',', ' '] ∧ ":".toList = [':'] :=
    ⟨rfl, rfl, rfl⟩
  obtain ⟨letters, hletters⟩ : ∃ letters, half.toList = ' ' :: letters := by
    rcases hhalf with ⟨rfl, _⟩ | ⟨rfl, _⟩
    · exact ⟨['A', 'M'], rfl⟩
    · exact ⟨['P', 'M'], rfl⟩
  have htext : (toString day ++ " " ++ months.getD (month - 1).toNat "" ++ " " ++
      toString year ++ ", " ++ toString clock ++ ":" ++ toString tens ++ toString ones ++
      half).toList = (toString day).toList ++ ' ' :: ((months.getD (month - 1).toNat "").toList ++
        ' ' :: ((toString year).toList ++ ',' :: ' ' :: ((toString clock).toList ++
          ':' :: ((toString tens).toList ++ ((toString ones).toList ++ ' ' :: letters))))) := by
    simp only [String.toList_append, List.append_assoc, htokens, hletters, List.cons_append,
      List.nil_append]
  simp only [parse, htext, numeral_toString day (by decide : ' '.isDigit = false), hspace,
    monthName_append hmonth hmonth', numeral_toString year (by decide : ','.isDigit = false),
    hcomma, numeral_toString clock (by decide : ':'.isDigit = false), hcolon,
    numeral_two_digits hones (by decide : ' '.isDigit = false), Option.bind_eq_bind,
    Option.bind_some]
  rcases hhalf with ⟨rfl, rfl⟩ | ⟨rfl, rfl⟩
  · obtain rfl : letters = ['A', 'M'] := by simpa using hletters.symm
    simp
  · obtain rfl : letters = ['P', 'M'] := by simpa using hletters.symm
    simp

/-- The fields that a calendar and a clock have. -/
structure Fields.InRange (fields : Fields) : Prop where
  month : 1 ≤ fields.date.month ∧ fields.date.month ≤ 12
  day : 0 ≤ fields.date.day
  hour : 0 ≤ fields.hour ∧ fields.hour < 24
  minute : 0 ≤ fields.minute ∧ fields.minute < 60

theorem fieldsOf_inRange (localMinute : ℤ) : (fieldsOf localMinute).InRange := by
  obtain ⟨hmonth, hday⟩ := Civil.ofDay_bounds (localMinute / 1440)
  refine ⟨hmonth, by simp only [fieldsOf]; omega, ?_, ?_⟩
  · simp only [fieldsOf]
    omega
  · simp only [fieldsOf]
    omega

/-- The fields as the text gives them: the year is that of its era. -/
def Fields.printed (fields : Fields) : Fields :=
  { fields with date :=
    { fields.date with
      year := if 1 ≤ fields.date.year then fields.date.year else 1 - fields.date.year } }

/-- A printed date is read back with the year of its era, if that date exists. -/
theorem parse_print {fields : Fields} (h : fields.InRange) :
    parse (print fields) =
      if fields.printed.date.Valid then some fields.printed else none := by
  obtain ⟨⟨year, month, day⟩, hour, minute⟩ := fields
  obtain ⟨⟨hmonth, hmonth'⟩, hday, ⟨hhour, hhour'⟩, hminute, hminute'⟩ := h
  dsimp only at *
  have hyear : 1 ≤ if 1 ≤ year then year else 1 - year := by split <;> omega
  have hclock : 1 ≤ (if hour % 12 = 0 then 12 else hour % 12) ∧
      (if hour % 12 = 0 then 12 else hour % 12) ≤ 12 := by split <;> omega
  have hback : (if hour % 12 = 0 then 12 else hour % 12) % 12 +
      (if hour < 12 then 0 else 12) = hour := by
    split_ifs <;> omega
  have hhalf : ((if hour < 12 then " AM" else " PM") = " AM" ∧
      (if hour < 12 then (0 : ℤ) else 12) = 0) ∨ ((if hour < 12 then " AM" else " PM") = " PM" ∧
      (if hour < 12 then (0 : ℤ) else 12) = 12) := by
    split
    · exact .inl ⟨rfl, rfl⟩
    · exact .inr ⟨rfl, rfl⟩
  have hones : (minute % 10).toNat < 10 := by omega
  simp only [print, Fields.printed]
  generalize (if 1 ≤ year then year else 1 - year) = y at *
  generalize (if hour % 12 = 0 then 12 else hour % 12) = clock at *
  rw [parse_text day.toNat y.toNat clock.toNat (minute / 10).toNat (minute % 10).toNat hmonth
    hmonth' hones _ _ hhalf]
  lift day to ℕ using hday
  lift y to ℕ using by omega
  lift clock to ℕ using by omega
  have hminuteEq : 10 * ((minute / 10).toNat : ℤ) + ((minute % 10).toNat : ℤ) = minute := by omega
  have hin : 1 ≤ clock ∧ clock ≤ 12 ∧ minute < 60 := by omega
  simp only [Int.toNat_natCast, hminuteEq, hback, hin, and_true]

/-- From the year 1 on nothing is lost by leaving out the era. -/
theorem Fields.printed_of_year {fields : Fields} (h : 1 ≤ fields.date.year) :
    fields.printed = fields := by
  simp only [Fields.printed, h, if_true]

/-- What a device shows at an instant. -/
def fieldsAt (zone : TimeZone) (date : Date) : Fields :=
  fieldsOf (date.minute + zone.offset date.minute)

/-- What one device reads of a date that another has printed. -/
theorem date_string (writer reader : TimeZone) (d : Date) :
    date reader (string writer d) =
      if (fieldsAt writer d).printed.date.Valid then
        (reader.resolve (localMinuteOf (fieldsAt writer d).printed)).map fun minute : ℤ =>
          60 * (minute : Date)
      else none := by
  have hparse : parse (string writer d) =
      if (fieldsAt writer d).printed.date.Valid then some (fieldsAt writer d).printed else none :=
    parse_print (fieldsOf_inRange _)
  by_cases hvalid : (fieldsAt writer d).printed.date.Valid
  · rw [if_pos hvalid] at hparse ⊢
    simp only [date, hparse, Option.bind_eq_bind, Option.bind_some, Option.map_eq_bind]
    rfl
  · rw [if_neg hvalid] at hparse ⊢
    simp only [date, hparse, Option.bind_eq_bind, Option.bind_none]

end DateFormatter

end Auctioneer
