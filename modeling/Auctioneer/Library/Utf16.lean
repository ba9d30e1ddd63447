import Mathlib.Data.List.Basic

/-!
Texts as sequences of scalars and as the UTF-16 code units that encode them,
with offsets counted in code units.
-/

namespace Utf16

/-- The code units of a scalar: one, or a surrogate pair. -/
def units (c : Char) : List ℕ :=
  if c.toNat < 0x10000 then [c.toNat]
  else [0xD800 + (c.toNat - 0x10000) / 0x400, 0xDC00 + (c.toNat - 0x10000) % 0x400]

def encode (text : List Char) : List ℕ := text.flatMap units

def isHigh (unit : ℕ) : Bool := 0xD800 ≤ unit && unit < 0xDC00

def isLow (unit : ℕ) : Bool := 0xDC00 ≤ unit && unit < 0xE000

/-- The scalar of a unit that is not half of a pair. A lone surrogate is read as
the replacement character. -/
def single (unit : ℕ) : Char :=
  if isHigh unit || isLow unit then Char.ofNat 0xFFFD else Char.ofNat unit

def pair (high low : ℕ) : Char :=
  Char.ofNat (0x10000 + (high - 0xD800) * 0x400 + (low - 0xDC00))

def decode : List ℕ → List Char
  | [] => []
  | [unit] => [single unit]
  | high :: low :: rest =>
      if isHigh high && isLow low then pair high low :: decode rest
      else single high :: decode (low :: rest)

@[simp] theorem encode_nil : encode [] = [] := rfl

@[simp] theorem encode_cons (c : Char) (text : List Char) :
    encode (c :: text) = units c ++ encode text := rfl

@[simp] theorem encode_append (text text' : List Char) :
    encode (text ++ text') = encode text ++ encode text' :=
  List.flatMap_append

theorem decode_single {unit : ℕ} (h : isHigh unit = false) (rest : List ℕ) :
    decode (unit :: rest) = single unit :: decode rest := by
  cases rest with
  | nil => rfl
  | cons low rest => simp [decode, h]

theorem toNat_range (c : Char) :
    c.toNat < 0xD800 ∨ 0xDFFF < c.toNat ∧ c.toNat < 0x110000 := c.valid

/-- What has been encoded is read back. -/
theorem decode_encode (text : List Char) : decode (encode text) = text := by
  induction text with
  | nil => rfl
  | cons c text ih =>
      have hrange := toNat_range c
      by_cases hbasic : c.toNat < 0x10000
      · have hhigh : isHigh c.toNat = false := by
          simp only [isHigh, Bool.and_eq_false_iff, decide_eq_false_iff_not]
          omega
        have hlow : isLow c.toNat = false := by
          simp only [isLow, Bool.and_eq_false_iff, decide_eq_false_iff_not]
          omega
        rw [encode_cons, units, if_pos hbasic, List.singleton_append, decode_single hhigh, ih]
        simp [single, hhigh, hlow, Char.ofNat_toNat]
      · have hhigh : isHigh (0xD800 + (c.toNat - 0x10000) / 0x400) = true := by
          simp only [isHigh, Bool.and_eq_true, decide_eq_true_eq]
          omega
        have hlow : isLow (0xDC00 + (c.toNat - 0x10000) % 0x400) = true := by
          simp only [isLow, Bool.and_eq_true, decide_eq_true_eq]
          omega
        have hscalar : 0x10000 + (0xD800 + (c.toNat - 0x10000) / 0x400 - 0xD800) * 0x400 +
            (0xDC00 + (c.toNat - 0x10000) % 0x400 - 0xDC00) = c.toNat := by omega
        rw [encode_cons, units, if_neg hbasic]
        simp only [List.cons_append, List.nil_append, decode, hhigh, hlow, Bool.and_self,
          if_true, ih, pair, hscalar, Char.ofNat_toNat]

/-- The text before and after an offset, if the offset is in the text and not
inside a surrogate pair. -/
def splitAt : ℕ → List Char → Option (List Char × List Char)
  | 0, text => some ([], text)
  | _ + 1, [] => none
  | offset + 1, c :: text =>
      if (units c).length ≤ offset + 1 then
        (splitAt (offset + 1 - (units c).length) text).map fun parts => (c :: parts.1, parts.2)
      else none

theorem splitAt_eq_some {offset : ℕ} {text before after : List Char}
    (h : splitAt offset text = some (before, after)) :
    text = before ++ after ∧ (encode before).length = offset := by
  induction text generalizing offset before with
  | nil =>
      cases offset with
      | zero => simp_all [splitAt]
      | succ offset => cases h
  | cons c text ih =>
      cases offset with
      | zero =>
          obtain ⟨rfl, rfl⟩ := Prod.mk.inj (Option.some.inj h)
          exact ⟨rfl, rfl⟩
      | succ offset =>
          simp only [splitAt, Option.ite_none_right_eq_some, Option.map_eq_some_iff] at h
          obtain ⟨hfits, ⟨first, rest⟩, hsplit, hparts⟩ := h
          obtain ⟨rfl, rfl⟩ := Prod.mk.inj hparts
          obtain ⟨rfl, hlength⟩ := ih hsplit
          refine ⟨rfl, ?_⟩
          rw [encode_cons, List.length_append, hlength]
          omega

/-- A text whose every scalar is one unit can be split at each of its offsets. -/
theorem splitAt_isSome {text : List Char} (hbasic : ∀ c ∈ text, (units c).length = 1)
    {offset : ℕ} (hoffset : offset ≤ (encode text).length) :
    (splitAt offset text).isSome := by
  induction text generalizing offset with
  | nil =>
      obtain rfl : offset = 0 := by simpa using hoffset
      rfl
  | cons c text ih =>
      have hunit : (units c).length = 1 := hbasic c (by simp)
      cases offset with
      | zero => rfl
      | succ offset =>
          rw [encode_cons, List.length_append, hunit] at hoffset
          have hrest := ih (fun c' hc' => hbasic c' (by simp [hc']))
            (by omega : offset ≤ (encode text).length)
          simpa [splitAt, hunit] using hrest

/-- Units replaced between two offsets. -/
def replace (text : List ℕ) (location length : ℕ) (string : List ℕ) : List ℕ :=
  text.take location ++ string ++ text.drop (location + length)

theorem replace_encode (before middle after string : List Char) :
    replace (encode (before ++ (middle ++ after))) (encode before).length
        (encode middle).length (encode string) =
      encode (before ++ string ++ after) := by
  have htake : (encode before ++ (encode middle ++ encode after)).take (encode before).length =
      encode before := List.take_left
  have hdrop : (encode before ++ (encode middle ++ encode after)).drop
      ((encode before).length + (encode middle).length) = encode after := by
    rw [← List.append_assoc, ← List.length_append, List.drop_left]
  simp only [replace, encode_append, htake, hdrop]

end Utf16
