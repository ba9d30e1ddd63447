import Auctioneer.Library.Utf16
import Mathlib.Tactic.Linarith

/-!
The order of the keys. A key is read as its UTF-16 code units: those that spell
a 32-bit integer come first, in the order of the integers.
-/

namespace FirebaseDatabase

/-- The code units of a key. -/
def units (key : String) : List ℕ := Utf16.encode key.toList

theorem units_injective {a b : String} (h : units a = units b) : a = b := by
  have hdecode := congrArg Utf16.decode h
  rw [units, units, Utf16.decode_encode, Utf16.decode_encode] at hdecode
  exact String.toList_injective hdecode

namespace FUtilities

/-- The loop of `tryParseStringToInt`. -/
def digits (value : ℕ) : List ℕ → Option ℕ
  | [] => some value
  | c :: rest => if c < 48 || 57 < c then none else digits (value * 10 + (c - 48)) rest

/-- The digits after the sign, if there is one: 45 is the hyphen. -/
def signedDigits (str : List ℕ) : Option ℤ :=
  match str with
  | 45 :: rest =>
      if rest.isEmpty then none else (digits 0 rest).map fun (value : ℕ) => -(value : ℤ)
  | rest => (digits 0 rest).map fun (value : ℕ) => (value : ℤ)

def tryParseStringToInt (str : List ℕ) : Option ℤ :=
  if 11 < str.length || str.length = 0 then none
  else
    match signedDigits str with
    | none => none
    | some value => if value < -2147483648 || 2147483647 < value then none else some value

/-- Literal search compares the code units. -/
def compareKey (a b : String) : Ordering :=
  match tryParseStringToInt (units a), tryParseStringToInt (units b) with
  | some aAsInt, some bAsInt =>
      if bAsInt < aAsInt then .gt
      else if aAsInt < bAsInt then .lt
      else if (units b).length < (units a).length then .gt
      else if (units a).length < (units b).length then .lt
      else .eq
  | some _, none => .lt
  | none, some _ => .gt
  | none, none => compare (units a) (units b)

/-- What a key is compared by: an integer, its value and its length, a text, its
code units. -/
def rank (key : String) : ℕ × ℤ × ℕ × List ℕ :=
  match tryParseStringToInt (units key) with
  | some value => (0, value, (units key).length, [])
  | none => (1, 0, 0, units key)

def compareRank : ℕ × ℤ × ℕ × List ℕ → ℕ × ℤ × ℕ × List ℕ → Ordering :=
  compareLex (compareOn (·.1)) (compareLex (compareOn (·.2.1))
    (compareLex (compareOn (·.2.2.1)) (compareOn (·.2.2.2))))

theorem compareKey_eq_rank (a b : String) : compareKey a b = compareRank (rank a) (rank b) := by
  rw [compareKey, rank, rank]
  cases tryParseStringToInt (units a) with
  | none =>
      cases tryParseStringToInt (units b) with
      | none => simp [compareRank, compareLex, compareOn]
      | some bAsInt => rfl
  | some aAsInt =>
      cases tryParseStringToInt (units b) with
      | none => rfl
      | some bAsInt =>
          have hnil : compare ([] : List ℕ) [] = .eq := rfl
          simp only [compareRank, compareLex, compareOn, hnil, Std.ReflOrd.compare_self,
            Ordering.eq_then, Ordering.then_eq]
          rcases lt_trichotomy aAsInt bAsInt with hlt | rfl | hlt
          · simp [hlt, not_lt_of_gt hlt, Int.compare_eq_lt.mpr hlt]
          · rcases lt_trichotomy (units a).length (units b).length with hlength | hlength | hlength
            · simp [hlength, not_lt_of_gt hlength, Nat.compare_eq_lt.mpr hlength]
            · simp [hlength]
            · simp [hlength, Nat.compare_eq_gt.mpr hlength]
          · simp [hlt, Int.compare_eq_gt.mpr hlt]

instance : Std.TransCmp compareRank := inferInstanceAs (Std.TransCmp (compareLex _ _))

instance : Std.TransCmp compareKey where
  eq_swap {a b} := by
    rw [compareKey_eq_rank, compareKey_eq_rank]
    exact Std.OrientedCmp.eq_swap
  isLE_trans {a b c} := by
    rw [compareKey_eq_rank, compareKey_eq_rank, compareKey_eq_rank]
    exact Std.TransCmp.isLE_trans

/-- As many digits that give one value are the same digits. -/
theorem digits_inj {str str' : List ℕ} {value value' result : ℕ}
    (h : digits value str = some result) (h' : digits value' str' = some result)
    (hlength : str.length = str'.length) : value = value' ∧ str = str' := by
  induction str generalizing str' value value' with
  | nil =>
      obtain rfl := List.length_eq_zero_iff.mp hlength.symm
      exact ⟨(Option.some.inj h).trans (Option.some.inj h').symm, rfl⟩
  | cons c rest ih =>
      match str', h', hlength with
      | c' :: rest', h', hlength =>
          rw [digits, Option.ite_none_left_eq_some] at h h'
          obtain ⟨hdigit, h⟩ := h
          obtain ⟨hdigit', h'⟩ := h'
          simp only [Bool.or_eq_true, decide_eq_true_eq] at hdigit hdigit'
          obtain ⟨hvalue, rfl⟩ := ih h h' (Nat.succ.inj hlength)
          exact ⟨by omega, by rw [show c = c' by omega]⟩

theorem digits_replicate (n : ℕ) : digits 0 (List.replicate n 48) = some 0 := by
  induction n with
  | zero => rfl
  | succ n ih => exact ih

theorem eq_replicate_of_digits {str : List ℕ} (h : digits 0 str = some 0) :
    str = List.replicate str.length 48 :=
  (digits_inj h (digits_replicate str.length) (by simp)).2

/-- A key that spells an integer is its digits, after a hyphen or not. -/
theorem signedDigits_cases {str : List ℕ} {value : ℤ} (h : signedDigits str = some value) :
    (∃ rest n, str = 45 :: rest ∧ rest ≠ [] ∧ digits 0 rest = some n ∧ value = -(n : ℤ)) ∨
      ∃ n, digits 0 str = some n ∧ value = (n : ℤ) := by
  unfold signedDigits at h
  split at h
  · rw [Option.ite_none_left_eq_some, Option.map_eq_some_iff] at h
    obtain ⟨hrest, n, hn, rfl⟩ := h
    exact .inl ⟨_, n, rfl, by simpa using hrest, hn, rfl⟩
  · rw [Option.map_eq_some_iff] at h
    obtain ⟨n, hn, rfl⟩ := h
    exact .inr ⟨n, hn, rfl⟩

/-- A zero with a sign and one with as many characters without. -/
def TwoZeros (a b : List ℕ) : Prop :=
  ∃ n, 0 < n ∧ n ≤ 10 ∧ a = 45 :: List.replicate n 48 ∧ b = 48 :: List.replicate n 48

theorem twoZeros_of_values {rest str : List ℕ} {n n' : ℕ} (hrest : rest ≠ [])
    (hlong : (45 :: rest).length ≤ 11) (h : digits 0 rest = some n) (h' : digits 0 str = some n')
    (hvalue : -(n : ℤ) = n') (hlength : (45 :: rest).length = str.length) :
    TwoZeros (45 :: rest) str := by
  obtain rfl : n = 0 := by omega
  obtain rfl : n' = 0 := by omega
  have hpos := List.length_pos_iff.mpr hrest
  refine ⟨rest.length, hpos, Nat.succ_le_succ_iff.mp hlong, ?_, ?_⟩
  · exact congrArg _ (eq_replicate_of_digits h)
  · rw [eq_replicate_of_digits h', ← hlength]
    rfl

theorem eq_or_twoZeros {str str' : List ℕ} {value : ℤ} (hlong : str.length ≤ 11)
    (h : signedDigits str = some value) (h' : signedDigits str' = some value)
    (hlength : str.length = str'.length) : str = str' ∨ TwoZeros str str' ∨ TwoZeros str' str := by
  rcases signedDigits_cases h with ⟨rest, n, rfl, hrest, hn, rfl⟩ | ⟨n, hn, rfl⟩ <;>
    rcases signedDigits_cases h' with ⟨rest', n', rfl, hrest', hn', hvalue⟩ | ⟨n', hn', hvalue⟩
  · obtain rfl : n = n' := by omega
    exact .inl (congrArg _ (digits_inj hn hn' (Nat.succ.inj hlength)).2)
  · exact .inr (.inl (twoZeros_of_values hrest hlong hn hn' hvalue hlength))
  · exact .inr (.inr (twoZeros_of_values hrest' (hlength ▸ hlong) hn' hn hvalue.symm hlength.symm))
  · obtain rfl : n = n' := by omega
    exact .inl (digits_inj hn hn' hlength).2

theorem tryParseStringToInt_eq_some {str : List ℕ} {value : ℤ}
    (h : tryParseStringToInt str = some value) :
    str.length ≤ 11 ∧ signedDigits str = some value := by
  rw [tryParseStringToInt, Option.ite_none_left_eq_some] at h
  obtain ⟨hlength, h⟩ := h
  cases hsigned : signedDigits str with
  | none => simp [hsigned] at h
  | some found =>
      simp only [hsigned, Option.ite_none_left_eq_some, Option.some.injEq] at h
      simp only [Bool.or_eq_true, decide_eq_true_eq, not_or, not_lt] at hlength
      exact ⟨hlength.1, congrArg some h.2⟩

theorem TwoZeros.parsed {a b : List ℕ} (h : TwoZeros a b) :
    tryParseStringToInt a = some 0 ∧ tryParseStringToInt b = some 0 ∧ a.length = b.length := by
  obtain ⟨n, hpos, hle, rfl, rfl⟩ := h
  obtain ⟨n, rfl⟩ : ∃ m, n = m + 1 := ⟨n - 1, by omega⟩
  have hzero : digits 0 (48 :: List.replicate (n + 1) 48) = some 0 := digits_replicate (n + 2)
  have hlong : ¬11 < n + 1 + 1 := by omega
  refine ⟨?_, ?_, rfl⟩
  · simp [tryParseStringToInt, signedDigits, digits_replicate, hlong]
  · simp [tryParseStringToInt, signedDigits, hzero, hlong]

/-- Two keys compare equal if they are one, or two spellings of zero. -/
theorem compareKey_eq_iff (a b : String) :
    compareKey a b = .eq ↔
      a = b ∨ TwoZeros (units a) (units b) ∨ TwoZeros (units b) (units a) := by
  constructor
  · intro h
    rw [compareKey] at h
    cases ha : tryParseStringToInt (units a) with
    | none =>
        cases hb : tryParseStringToInt (units b) with
        | none =>
            simp only [ha, hb] at h
            exact .inl (units_injective (Std.LawfulEqOrd.eq_of_compare h))
        | some bAsInt => simp [ha, hb] at h
    | some aAsInt =>
        cases hb : tryParseStringToInt (units b) with
        | none => simp [ha, hb] at h
        | some bAsInt =>
            simp only [ha, hb] at h
            split_ifs at h with hgt hlt hlonger hshorter
            obtain rfl : aAsInt = bAsInt := by omega
            obtain ⟨hlong, hsigned⟩ := tryParseStringToInt_eq_some ha
            exact (eq_or_twoZeros hlong hsigned (tryParseStringToInt_eq_some hb).2
              (by omega)).imp_left units_injective
  · rintro (rfl | hzeros | hzeros)
    · exact Std.ReflCmp.compare_self
    · obtain ⟨ha, hb, hlength⟩ := hzeros.parsed
      simp [compareKey, ha, hb, hlength]
    · obtain ⟨hb, ha, hlength⟩ := hzeros.parsed
      simp [compareKey, ha, hb, hlength]

/-- The keys are in a total order but for the two spellings of zero. -/
theorem compareKey_order (a b c : String) :
    compareKey b a = (compareKey a b).swap ∧
      (compareKey a b = .lt → compareKey b c = .lt → compareKey a c = .lt) ∧
      (compareKey a b = .eq ↔
        a = b ∨ TwoZeros (units a) (units b) ∨ TwoZeros (units b) (units a)) :=
  ⟨Std.OrientedCmp.eq_swap, Std.TransCmp.lt_trans, compareKey_eq_iff a b⟩

end FUtilities

end FirebaseDatabase
