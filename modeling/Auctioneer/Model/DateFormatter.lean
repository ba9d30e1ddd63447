import Auctioneer.Library.Civil
import Mathlib.Data.Rat.Floor

/-!
Foundation's `DateFormatter` with the format "d MMM y, h:mm a" and no time zone
set: it prints and parses the local civil time of its own device.
-/

namespace Auctioneer

/-- An instant, in seconds since 1 January 1970 in Greenwich. -/
abbrev Date := ℚ

/-- `offset` is the difference between local and Greenwich time, in minutes,
during each minute since the epoch. A local minute that the clocks skip has no
Greenwich minute; of a repeated one, `resolve` picks one occurrence. -/
structure TimeZone where
  offset : ℤ → ℤ
  resolve : ℤ → Option ℤ
  resolve_sound : ∀ {localMinute minute}, resolve localMinute = some minute →
    minute + offset minute = localMinute
  resolve_complete : ∀ minute, (resolve (minute + offset minute)).isSome

/-- A zone whose clocks never change. -/
def TimeZone.fixed (offset : ℤ) : TimeZone where
  offset _ := offset
  resolve localMinute := some (localMinute - offset)
  resolve_sound h := by
    simp only [Option.some.injEq] at h
    omega
  resolve_complete _ := rfl

/-- The minute that an instant falls in. -/
def Date.minute (date : Date) : ℤ := ⌊date / 60⌋

namespace DateFormatter

def months : List String :=
  ["Jan", "Feb", "Mar", "Apr", "May", "Jun", "Jul", "Aug", "Sep", "Oct", "Nov", "Dec"]

/-- The local civil time that a date is printed as and parsed from. -/
structure Fields where
  date : Civil
  hour : ℤ
  minute : ℤ
deriving DecidableEq

def fieldsOf (localMinute : ℤ) : Fields :=
  { date := Civil.ofDay (localMinute / 1440)
    hour := localMinute % 1440 / 60
    minute := localMinute % 60 }

def localMinuteOf (fields : Fields) : ℤ :=
  Civil.toDay fields.date * 1440 + fields.hour * 60 + fields.minute

/-- `d MMM y, h:mm a`. The letter `y` is the year of its era, and no era is
printed. -/
def print (fields : Fields) : String :=
  let year := if 1 ≤ fields.date.year then fields.date.year else 1 - fields.date.year
  let hour := if fields.hour % 12 = 0 then 12 else fields.hour % 12
  toString fields.date.day.toNat ++ " " ++
    months.getD (fields.date.month - 1).toNat "" ++ " " ++
    toString year.toNat ++ ", " ++ toString hour.toNat ++ ":" ++
    toString (fields.minute / 10).toNat ++ toString (fields.minute % 10).toNat ++
    (if fields.hour < 12 then " AM" else " PM")

def digit (c : Char) : Option ℤ :=
  if c.isDigit then some ((c.toNat - '0'.toNat : Nat) : ℤ) else none

/-- Reads the longest prefix of digits on top of the value read so far. -/
def number (value : ℤ) : List Char → ℤ × List Char
  | [] => (value, [])
  | c :: rest =>
      match digit c with
      | none => (value, c :: rest)
      | some d => number (10 * value + d) rest

def numeral : List Char → Option (ℤ × List Char)
  | [] => none
  | c :: rest => (digit c).map fun d => number d rest

def expect (token : List Char) (text : List Char) : Option (List Char) :=
  if text.take token.length = token then some (text.drop token.length) else none

def monthName (text : List Char) : Option (ℤ × List Char) :=
  let index := months.findIdx fun name => name.toList = text.take 3
  if index < months.length then some ((index : ℤ) + 1, text.drop 3) else none

/-- The fields a text names, if it has the format and they exist. -/
def parse (text : String) : Option Fields := do
  let (day, rest) ← numeral text.toList
  let rest ← expect " ".toList rest
  let (month, rest) ← monthName rest
  let rest ← expect " ".toList rest
  let (year, rest) ← numeral rest
  let rest ← expect ", ".toList rest
  let (hour, rest) ← numeral rest
  let rest ← expect ":".toList rest
  let (minute, rest) ← numeral rest
  let afternoon ←
    if rest = " AM".toList then some 0 else if rest = " PM".toList then some 12 else none
  let fields : Fields := ⟨⟨year, month, day⟩, hour % 12 + afternoon, minute⟩
  if fields.date.Valid ∧ 1 ≤ hour ∧ hour ≤ 12 ∧ minute < 60 then some fields else none

/-- `formatter.string(from: date)` on a device in the given zone. -/
def string (zone : TimeZone) (date : Date) : String :=
  print (fieldsOf (date.minute + zone.offset date.minute))

/-- `formatter.date(from: text)` on a device in the given zone. -/
def date (zone : TimeZone) (text : String) : Option Date := do
  let fields ← parse text
  let minute ← zone.resolve (localMinuteOf fields)
  some (60 * minute)

example : string (TimeZone.fixed 480) 1643007600 = "24 Jan 2022, 3:00 PM" := by decide +kernel

example : date (TimeZone.fixed 480) "24 Jan 2022, 3:00 PM" = some 1643007600 := by decide +kernel

theorem localMinuteOf_fieldsOf (localMinute : ℤ) :
    localMinuteOf (fieldsOf localMinute) = localMinute := by
  simp only [localMinuteOf, fieldsOf, Civil.toDay_ofDay]
  omega

end DateFormatter

end Auctioneer
