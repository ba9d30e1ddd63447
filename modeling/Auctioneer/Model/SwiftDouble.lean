import Mathlib.Data.Rat.Floor

/-!
Swift's `Double` as this app uses it: values read from a text field and
compared with stored prices. Finite values are compared exactly, so of the
rounding to the nearest binary fraction only the step to infinity is modelled.
-/

namespace Auctioneer

/-- An amount of money as stored in the database. -/
abbrev Price := ℚ

inductive Double where
  | finite (value : ℚ)
  | infinity (negative : Bool)
  | nan
deriving DecidableEq, Repr

namespace Double

/-- IEEE comparison: every comparison with `nan` is false. -/
def lt : Double → Double → Bool
  | .nan, _ | _, .nan => false
  | .finite a, .finite b => a < b
  | .finite _, .infinity negative => !negative
  | .infinity negative, .finite _ => negative
  | .infinity a, .infinity b => a && !b

def le : Double → Double → Bool
  | .nan, _ | _, .nan => false
  | a, b => !lt b a

@[simp] theorem finite_lt_finite (a b : ℚ) : lt (.finite a) (.finite b) = decide (a < b) := rfl

@[simp] theorem finite_le_finite (a b : ℚ) : le (.finite a) (.finite b) = decide (a ≤ b) := by
  rw [Bool.eq_iff_iff]
  simp [le, lt]

def decimalDigit (c : Char) : Option Nat :=
  if c.isDigit then some (c.toNat - '0'.toNat) else none

def hexDigit (c : Char) : Option Nat :=
  if c.isDigit then some (c.toNat - '0'.toNat)
  else if 'a'.toNat ≤ c.toLower.toNat ∧ c.toLower.toNat ≤ 'f'.toNat then
    some (c.toLower.toNat - 'a'.toNat + 10)
  else none

/-- The longest prefix of digits, and what follows it. -/
def spanDigits (digit : Char → Option Nat) : List Char → List Nat × List Char
  | [] => ([], [])
  | c :: rest =>
      match digit c with
      | none => ([], c :: rest)
      | some d => (d :: (spanDigits digit rest).1, (spanDigits digit rest).2)

def valueOf (base : Nat) (digits : List Nat) : Nat :=
  digits.foldl (fun value d => base * value + d) 0

/-- Digits with an optional point; at least one digit on either side. -/
def mantissa (base : Nat) (digit : Char → Option Nat) (text : List Char) :
    Option (ℚ × List Char) :=
  let (whole, rest) := spanDigits digit text
  match rest with
  | '.' :: rest =>
      let (fraction, rest) := spanDigits digit rest
      if whole ++ fraction = [] then none
      else some (valueOf base (whole ++ fraction) / base ^ fraction.length, rest)
  | rest => if whole = [] then none else some (valueOf base whole, rest)

/-- What follows the mantissa: nothing, or a marked exponent and nothing more. -/
def exponent (marker : Char) : List Char → Option ℤ
  | [] => some 0
  | c :: rest =>
      if c.toLower ≠ marker then none
      else
        let (sign, rest) := match rest with
          | '-' :: rest => (-1, rest)
          | '+' :: rest => (1, rest)
          | rest => (1, rest)
        match spanDigits decimalDigit rest with
        | ([], _) | (_, _ :: _) => none
        | (digits, []) => some (sign * (valueOf 10 digits : ℤ))

/-- A number from here on is nearer to `2 ^ 1024` than to the largest finite
value, or as near to both, and then rounds to the even one. -/
def overflow : ℚ := ((2 ^ 1024 - 2 ^ 970 : ℕ) : ℚ)

/-- What a number written in digits reads as. -/
def ofValue (value : ℚ) : Double :=
  if value < overflow then .finite value else .infinity false

def isNanTag (text : List Char) : Bool :=
  match text with
  | [] => true
  | '(' :: rest => rest.getLast? = some ')' &&
      rest.dropLast.all fun c => c.isAlphanum || c = '_'
  | _ => false

def unsigned (text : List Char) : Option Double :=
  let lower := text.map Char.toLower
  if lower = "inf".toList ∨ lower = "infinity".toList then some (.infinity false)
  else if lower.take 3 = "nan".toList then
    if isNanTag (text.drop 3) then some .nan else none
  else match text with
    | '0' :: x :: rest =>
        if x.toLower = 'x' then do
          let (value, rest) ← mantissa 16 hexDigit rest
          let scale ← exponent 'p' rest
          some (ofValue (value * 2 ^ scale))
        else do
          let (value, rest) ← mantissa 10 decimalDigit text
          let scale ← exponent 'e' rest
          some (ofValue (value * 10 ^ scale))
    | _ => do
        let (value, rest) ← mantissa 10 decimalDigit text
        let scale ← exponent 'e' rest
        some (ofValue (value * 10 ^ scale))

def negate : Double → Double
  | .finite value => .finite (-value)
  | .infinity negative => .infinity (!negative)
  | .nan => .nan

/-- `Double(text)`: the strings that C `strtod` consumes whole, without leading
white space. -/
def ofText (text : String) : Option Double :=
  match text.toList with
  | '-' :: rest => (unsigned rest).map negate
  | '+' :: rest => unsigned rest
  | rest => unsigned rest

example : ofText "12.50" = some (.finite (25 / 2)) := by decide +kernel

example : ofText "-1e309" = some (.infinity true) := by decide +kernel

end Double

/-- `String(format: "%.2f", price)`, ties to the even digit. -/
def twoDecimals (price : Price) : String :=
  let scaled := |price| * 100
  let low := ⌊scaled⌋₊
  let rest := scaled - low
  let cents :=
    if rest < 1 / 2 ∨ (rest = 1 / 2 ∧ low % 2 = 0) then low else low + 1
  let sign := if price < 0 then "-" else ""
  sign ++ toString (cents / 100) ++ "." ++
    toString (cents % 100 / 10) ++ toString (cents % 10)

example : twoDecimals (25 / 2) = "12.50" := by decide +kernel

end Auctioneer
