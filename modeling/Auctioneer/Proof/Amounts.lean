import Auctioneer.Model.SwiftDouble
import Mathlib

/-!
The texts that `Double(String)` reads: which characters they are written in, and
what it makes of digits with a dot among them.
-/

namespace Auctioneer

namespace Double

/-- The characters that a number can be written in. -/
def isNumberChar (c : Char) : Bool :=
  c.isAlphanum || c = '.' || c = '(' || c = ')' || c = '_' || c = '+' || c = '-'

theorem isNumberChar_ascii {c : Char} (h : isNumberChar c = true) :
    c.toNat < 128 ∧ c ≠ '\r' := by
  simp only [isNumberChar, Char.isAlphanum, Char.isAlpha, Char.isUpper, Char.isLower,
    Char.isDigit, Bool.or_eq_true, Bool.and_eq_true, decide_eq_true_eq] at h
  refine ⟨?_, ?_⟩
  · rcases h with ((((((((h | h) | h) | h) | h) | h) | h) | h) | h)
    all_goals first
      | (obtain ⟨_, hle⟩ := h; exact Nat.lt_of_le_of_lt (UInt32.le_iff_toNat_le.mp hle) (by decide))
      | (subst h; decide)
  · rintro rfl
    revert h
    decide

/-- Characters of numbers, none of which is a dot. -/
def Dotless (text : List Char) : Prop := ∀ c ∈ text, isNumberChar c = true ∧ c ≠ '.'

/-- Characters of numbers, at most one of which is a dot. -/
def OneDot (text : List Char) : Prop :=
  (∀ c ∈ text, isNumberChar c = true) ∧ text.count '.' ≤ 1

theorem Dotless.count_dot {text : List Char} (h : Dotless text) : text.count '.' = 0 :=
  List.count_eq_zero.mpr fun hdot => (h '.' hdot).2 rfl

theorem Dotless.oneDot {text : List Char} (h : Dotless text) : OneDot text := by
  refine ⟨fun c hc => (h c hc).1, ?_⟩
  rw [h.count_dot]
  exact Nat.zero_le 1

theorem Dotless.append {text rest : List Char} (h : Dotless text) (hrest : Dotless rest) :
    Dotless (text ++ rest) := by
  intro c hc
  rcases List.mem_append.mp hc with hc | hc
  · exact h c hc
  · exact hrest c hc

theorem OneDot.append {text rest : List Char} (h : OneDot text) (hrest : Dotless rest) :
    OneDot (text ++ rest) := by
  refine ⟨?_, ?_⟩
  · intro c hc
    rcases List.mem_append.mp hc with hc | hc
    · exact h.1 c hc
    · exact (hrest c hc).1
  · rw [List.count_append, hrest.count_dot]
    exact h.2

theorem OneDot.cons {c : Char} {text : List Char} (hc : isNumberChar c = true) (hdot : c ≠ '.')
    (h : OneDot text) : OneDot (c :: text) := by
  refine ⟨?_, ?_⟩
  · intro c' hc'
    rcases List.mem_cons.mp hc' with rfl | hc'
    · exact hc
    · exact h.1 c' hc'
  · rw [List.count_cons_of_ne hdot]
    exact h.2

/-- Letters and digits are characters of numbers. -/
theorem isNumberChar_of_isAlphanum {c : Char} (h : c.isAlphanum = true) :
    isNumberChar c = true ∧ c ≠ '.' := by
  refine ⟨by simp [isNumberChar, h], ?_⟩
  rintro rfl
  revert h
  decide

/-- A text that reads as letters whatever their case. -/
theorem Dotless.of_toLower {text : List Char} {letters : String}
    (hletters : letters.toList.all Char.isAlpha = true)
    (h : text.map Char.toLower = letters.toList) : Dotless text := by
  intro c hc
  have hlower : c.toLower.isAlpha = true :=
    List.all_eq_true.mp hletters _ (h ▸ List.mem_map_of_mem hc)
  rw [Char.isAlpha_toLower_eq_isAlpha] at hlower
  exact isNumberChar_of_isAlphanum (by simp [Char.isAlphanum, hlower])

theorem decimalDigit_isSome {c : Char} : (decimalDigit c).isSome = c.isDigit := by
  unfold decimalDigit
  split
  · next h => simp [h]
  · next h => simp [h]

theorem isAlphanum_of_decimalDigit {c : Char} (h : (decimalDigit c).isSome = true) :
    c.isAlphanum = true := by
  rw [decimalDigit_isSome] at h
  simp [Char.isAlphanum, h]

theorem isAlphanum_of_hexDigit {c : Char} (h : (hexDigit c).isSome = true) :
    c.isAlphanum = true := by
  unfold hexDigit at h
  split at h
  · next hdigit => simp [Char.isAlphanum, hdigit]
  split at h
  · next hletter =>
    have hlower : c.toLower.isAlpha = true := by
      obtain ⟨hlow, hhigh⟩ := hletter
      have hz : c.toLower.toNat ≤ 'z'.toNat := hhigh.trans (by decide)
      simp only [Char.isAlpha, Char.isLower, Bool.or_eq_true, Bool.and_eq_true,
        decide_eq_true_eq]
      exact .inr ⟨UInt32.le_iff_toNat_le.mpr hlow, UInt32.le_iff_toNat_le.mpr hz⟩
    rw [Char.isAlpha_toLower_eq_isAlpha] at hlower
    simp [Char.isAlphanum, hlower]
  · cases h

section Digits

variable {digit : Char → Option Nat} {text rest : List Char} {digits : List Nat}

/-- What `spanDigits` takes is digits. -/
theorem spanDigits_eq (h : spanDigits digit text = (digits, rest)) :
    ∃ taken, text = taken ++ rest ∧ ∀ c ∈ taken, (digit c).isSome := by
  induction text generalizing digits with
  | nil =>
      obtain ⟨_, rfl⟩ := Prod.mk.inj h
      exact ⟨[], rfl, by simp⟩
  | cons c text ih =>
      simp only [spanDigits] at h
      split at h
      · obtain ⟨_, rfl⟩ := Prod.mk.inj h
        exact ⟨[], rfl, by simp⟩
      · next d hd =>
        obtain ⟨_, hrest⟩ := Prod.mk.inj h
        obtain ⟨taken, htext, htaken⟩ := ih (Prod.ext rfl hrest)
        refine ⟨c :: taken, by rw [htext, List.cons_append], ?_⟩
        intro c' hc'
        rcases List.mem_cons.mp hc' with rfl | hc'
        · simp [hd]
        · exact htaken c' hc'

theorem Dotless.of_digits {taken : List Char}
    (halphanum : ∀ c, (digit c).isSome = true → c.isAlphanum = true)
    (h : ∀ c ∈ taken, (digit c).isSome) : Dotless taken :=
  fun c hc => isNumberChar_of_isAlphanum (halphanum c (h c hc))

theorem spanDigits_dotless (halphanum : ∀ c, (digit c).isSome = true → c.isAlphanum = true)
    (h : spanDigits digit text = (digits, rest)) :
    ∃ taken, text = taken ++ rest ∧ Dotless taken := by
  obtain ⟨taken, htext, htaken⟩ := spanDigits_eq h
  exact ⟨taken, htext, .of_digits halphanum htaken⟩

theorem mantissa_oneDot (halphanum : ∀ c, (digit c).isSome = true → c.isAlphanum = true)
    {base : ℕ} {value : ℚ} (h : mantissa base digit text = some (value, rest)) :
    ∃ taken, text = taken ++ rest ∧ OneDot taken := by
  simp only [mantissa] at h
  generalize hwhole : spanDigits digit text = whole at h
  obtain ⟨wholeDigits, afterWhole⟩ := whole
  obtain ⟨taken, rfl, htaken⟩ := spanDigits_dotless halphanum hwhole
  simp only at h
  split at h
  · next fraction =>
    generalize hfraction : spanDigits digit fraction = parts at h
    obtain ⟨fractionDigits, afterFraction⟩ := parts
    obtain ⟨taken', rfl, htaken'⟩ := spanDigits_dotless halphanum hfraction
    simp only [Option.ite_none_left_eq_some, Option.some.injEq, Prod.mk.injEq] at h
    obtain ⟨_, _, rfl⟩ := h
    refine ⟨taken ++ '.' :: taken', by simp, ?_⟩
    refine ⟨?_, ?_⟩
    · intro c hc
      rcases List.mem_append.mp hc with hc | hc
      · exact (htaken c hc).1
      rcases List.mem_cons.mp hc with rfl | hc
      · decide
      · exact (htaken' c hc).1
    · simp [List.count_append, htaken.count_dot, htaken'.count_dot]
  · simp only [Option.ite_none_left_eq_some, Option.some.injEq, Prod.mk.injEq] at h
    obtain ⟨_, _, rfl⟩ := h
    exact ⟨taken, rfl, htaken.oneDot⟩

end Digits

/-- A text that `spanDigits` takes whole. -/
theorem Dotless.of_spanDigits {text : List Char} {digits : List Nat}
    (h : spanDigits decimalDigit text = (digits, [])) : Dotless text := by
  obtain ⟨taken, rfl, htaken⟩ := spanDigits_dotless (fun _ => isAlphanum_of_decimalDigit) h
  rwa [List.append_nil]

theorem exponent_dotless {marker : Char} (hmarker : marker.isAlpha = true) {text : List Char}
    {scale : ℤ} (h : exponent marker text = some scale) : Dotless text := by
  cases text with
  | nil => simp [Dotless]
  | cons c rest =>
      simp only [exponent, Option.ite_none_left_eq_some, not_not] at h
      obtain ⟨rfl, h⟩ := h
      rw [Char.isAlpha_toLower_eq_isAlpha] at hmarker
      have hletter : Dotless [c] := by
        intro c' hc'
        obtain rfl := List.mem_singleton.mp hc'
        exact isNumberChar_of_isAlphanum (by simp [Char.isAlphanum, hmarker])
      have hsign : ∀ sign : Char, (sign = '-' ∨ sign = '+') → Dotless [sign] := by
        rintro sign (rfl | rfl) <;> simp [Dotless, isNumberChar]
      refine Dotless.append hletter ?_
      split at h
      · cases h
      · cases h
      · next digits hspan =>
        have hdigits := Dotless.of_spanDigits hspan
        split at hdigits
        · exact (hsign '-' (.inl rfl)).append hdigits
        · exact (hsign '+' (.inr rfl)).append hdigits
        · exact hdigits

/-- A mantissa and then an exponent. -/
theorem scaled_oneDot {base : ℕ} {digit : Char → Option ℕ} {marker : Char}
    {text rest : List Char} {value : ℚ} {scale : ℤ}
    (halphanum : ∀ c, (digit c).isSome = true → c.isAlphanum = true)
    (hmarker : marker.isAlpha = true) (hmantissa : mantissa base digit text = some (value, rest))
    (hscale : exponent marker rest = some scale) : OneDot text := by
  obtain ⟨taken, rfl, htaken⟩ := mantissa_oneDot halphanum hmantissa
  exact htaken.append (exponent_dotless hmarker hscale)

/-- What is left when no letters are read: a number in hexadecimal or decimal. -/
def numeral (text : List Char) : Option Double :=
  match text with
    | '0' :: x :: rest =>
        if x.toLower = 'x' then do
          let (value, rest) ← mantissa 16 hexDigit rest
          let scale ← exponent 'p' rest
          some (ofValue (value * 2 ^ scale))
        else do
          let (value, rest) ← mantissa 10 decimalDigit text
          let scale ← exponent 'e' rest
          some (ofValue (value * 10 ^ scale))
    | _ => do
        let (value, rest) ← mantissa 10 decimalDigit text
        let scale ← exponent 'e' rest
        some (ofValue (value * 10 ^ scale))

theorem unsigned_eq (text : List Char) :
    unsigned text =
      if text.map Char.toLower = "inf".toList ∨ text.map Char.toLower = "infinity".toList then
        some (.infinity false)
      else if (text.map Char.toLower).take 3 = "nan".toList then
        if isNanTag (text.drop 3) then some .nan else none
      else numeral text := rfl

theorem numeral_oneDot {text : List Char} {value : Double} (h : numeral text = some value) :
    OneDot text := by
  have hdecimal := fun c (hc : (decimalDigit c).isSome = true) => isAlphanum_of_decimalDigit hc
  have hhex := fun c (hc : (hexDigit c).isSome = true) => isAlphanum_of_hexDigit hc
  unfold numeral at h
  split at h
  · next x rest =>
    split at h
    · next hx =>
      simp only [Option.bind_eq_bind, Option.bind_eq_some_iff] at h
      obtain ⟨⟨_, _⟩, hmantissa, _, hscale, _⟩ := h
      have hrest := scaled_oneDot hhex (by decide) hmantissa hscale
      have halpha : x.isAlpha = true := by
        rw [← Char.isAlpha_toLower_eq_isAlpha, hx]
        decide
      have halphanum : x.isAlphanum = true := by simp [Char.isAlphanum, halpha]
      obtain ⟨hletter, hdot⟩ := isNumberChar_of_isAlphanum halphanum
      exact (hrest.cons hletter hdot).cons (by decide) (by decide)
    · simp only [Option.bind_eq_bind, Option.bind_eq_some_iff] at h
      obtain ⟨⟨_, _⟩, hmantissa, _, hscale, _⟩ := h
      exact scaled_oneDot hdecimal (by decide) hmantissa hscale
  · simp only [Option.bind_eq_bind, Option.bind_eq_some_iff] at h
    obtain ⟨⟨_, _⟩, hmantissa, _, hscale, _⟩ := h
    exact scaled_oneDot hdecimal (by decide) hmantissa hscale

theorem isNanTag_dotless {text : List Char} (h : isNanTag text = true) : Dotless text := by
  unfold isNanTag at h
  split at h
  · simp [Dotless]
  · next rest =>
    simp only [Bool.and_eq_true, decide_eq_true_eq, List.all_eq_true, Bool.or_eq_true] at h
    obtain ⟨hlast, hall⟩ := h
    obtain ⟨inner, rfl⟩ := List.getLast?_eq_some_iff.mp hlast
    rw [List.dropLast_concat] at hall
    intro c hc
    rcases List.mem_cons.mp hc with rfl | hc
    · decide
    rcases List.mem_append.mp hc with hc | hc
    · rcases hall c hc with halphanum | rfl
      · exact isNumberChar_of_isAlphanum halphanum
      · decide
    · obtain rfl := List.mem_singleton.mp hc
      decide
  · cases h

theorem unsigned_oneDot {text : List Char} {value : Double} (h : unsigned text = some value) :
    OneDot text := by
  rw [unsigned_eq] at h
  split at h
  · next hinf =>
    rcases hinf with hinf | hinf
    · exact (Dotless.of_toLower (by decide) hinf).oneDot
    · exact (Dotless.of_toLower (by decide) hinf).oneDot
  split at h
  · next hnan =>
    split at h
    · next htag =>
      have hletters : (text.take 3).map Char.toLower = "nan".toList := by
        rw [List.map_take, hnan]
      rw [← List.take_append_drop 3 text]
      exact (Dotless.of_toLower (by decide) hletters).oneDot.append (isNanTag_dotless htag)
    · cases h
  · exact numeral_oneDot h

/-- Every number is written in these characters, with at most one dot. -/
theorem ofText_oneDot {text : String} (h : (ofText text).isSome) : OneDot text.toList := by
  obtain ⟨value, hvalue⟩ := Option.isSome_iff_exists.mp h
  simp only [ofText] at hvalue
  split at hvalue
  · next rest heq =>
    obtain ⟨_, hrest, _⟩ := Option.map_eq_some_iff.mp hvalue
    rw [heq]
    exact (unsigned_oneDot hrest).cons (by decide) (by decide)
  · next rest heq =>
    rw [heq]
    exact (unsigned_oneDot hvalue).cons (by decide) (by decide)
  · exact unsigned_oneDot hvalue

/-- Digits and dots only. -/
def isPlain (text : List Char) : Bool := text.all fun c => c.isDigit || c = '.'

section Plain

variable {text whole cents rest : List Char}

theorem isPlain_cons {c : Char} :
    isPlain (c :: text) = true ↔ (c.isDigit = true ∨ c = '.') ∧ isPlain text = true := by
  simp [isPlain]

theorem isPlain_append :
    isPlain (whole ++ rest) = true ↔ isPlain whole = true ∧ isPlain rest = true := by
  simp only [isPlain, List.all_append, Bool.and_eq_true]

theorem isPlain_of_digits (h : ∀ c ∈ whole, c.isDigit = true) : isPlain whole = true := by
  simp only [isPlain, List.all_eq_true]
  intro c hc
  simp [h c hc]

/-- Digits and dots have no case. -/
theorem toLower_of_plain {c : Char} (h : c.isDigit = true ∨ c = '.') : c.toLower = c := by
  rcases h with h | rfl
  · refine Char.toLower_eq_of_not_isUpper fun hupper => ?_
    simp only [Char.isDigit, Char.isUpper, Bool.and_eq_true, decide_eq_true_eq] at h hupper
    exact absurd (UInt32.le_trans hupper.1 h.2) (by decide)
  · decide

theorem map_toLower_of_plain (h : isPlain text = true) : text.map Char.toLower = text := by
  induction text with
  | nil => rfl
  | cons c text ih =>
      obtain ⟨hc, hrest⟩ := isPlain_cons.mp h
      rw [List.map_cons, toLower_of_plain hc, ih hrest]

/-- A plain text is read in decimal. -/
theorem numeral_of_plain (h : isPlain text = true) :
    numeral text = (mantissa 10 decimalDigit text).bind fun parts =>
      (exponent 'e' parts.2).map fun scale => ofValue (parts.1 * 10 ^ scale) := by
  have hdecimal : (do
      let (value, rest) ← mantissa 10 decimalDigit text
      let scale ← exponent 'e' rest
      some (ofValue (value * 10 ^ scale))) = (mantissa 10 decimalDigit text).bind fun parts =>
        (exponent 'e' parts.2).map fun scale => ofValue (parts.1 * 10 ^ scale) := by
    simp only [Option.bind_eq_bind, Option.map_eq_bind]
    rfl
  unfold numeral
  split
  · next x rest =>
    have hx := (isPlain_cons.mp (isPlain_cons.mp h).2).1
    have hmarker : x.toLower ≠ 'x' := by
      rw [toLower_of_plain hx]
      rintro rfl
      revert hx
      decide
    rw [if_neg hmarker, hdecimal]
  · exact hdecimal

theorem ofText_of_plain (h : isPlain text = true) : ofText (String.ofList text) = numeral text := by
  have hletter : ∀ c ∈ text, c.isDigit = true ∨ c = '.' := by
    simpa [isPlain] using h
  have hnot : ∀ {letters : List Char}, letters.all (fun c => c.isDigit || c = '.') = false →
      text ≠ letters := by
    rintro letters hletters rfl
    rw [isPlain] at h
    exact absurd (h.symm.trans hletters) (by decide)
  have hunsigned : unsigned text = numeral text := by
    have htake : text.take 3 ≠ "nan".toList := by
      intro htake
      have hn : 'n' ∈ text := List.mem_of_mem_take (i := 3) (by rw [htake]; decide)
      exact absurd (hletter 'n' hn) (by decide)
    rw [unsigned_eq, map_toLower_of_plain h, if_neg, if_neg htake]
    rintro (hinf | hinf)
    · exact hnot (by decide) hinf
    · exact hnot (by decide) hinf
  simp only [ofText, String.toList_ofList]
  split
  · exact absurd (hletter '-' (by simp)) (by decide)
  · exact absurd (hletter '+' (by simp)) (by decide)
  · exact hunsigned

theorem spanDigits_append (hdigits : ∀ c ∈ whole, c.isDigit = true)
    (hrest : ∀ c ∈ rest.head?, c.isDigit = false) :
    spanDigits decimalDigit (whole ++ rest) = (whole.map fun c => c.toNat - '0'.toNat, rest) := by
  induction whole with
  | nil =>
      cases rest with
      | nil => rfl
      | cons c rest =>
          have hc : decimalDigit c = none := by simp [decimalDigit, hrest c (by simp)]
          simp [spanDigits, hc]
  | cons c whole ih =>
      have hc : decimalDigit c = some (c.toNat - '0'.toNat) := by
        simp [decimalDigit, hdigits c (by simp)]
      have htail := ih fun c' hc' => hdigits c' (by simp [hc'])
      simp [spanDigits, hc, htail]

theorem spanDigits_digits (hdigits : ∀ c ∈ whole, c.isDigit = true) :
    spanDigits decimalDigit whole = (whole.map fun c => c.toNat - '0'.toNat, []) := by
  have hnil : ∀ c ∈ ([] : List Char).head?, c.isDigit = false := by simp
  simpa using spanDigits_append hdigits hnil

/-- The amount of a text in hundredths, when it has at most two decimals. -/
def hundredths (whole cents : List Char) : ℕ :=
  valueOf 10 ((whole ++ cents).map fun c => c.toNat - '0'.toNat) * 10 ^ (2 - cents.length)

/-- A text that is one mantissa to its end is read as its value. -/
theorem ofText_of_mantissa {value : ℚ} (hplain : isPlain text = true)
    (h : mantissa 10 decimalDigit text = some (value, [])) :
    ofText (String.ofList text) = some (ofValue value) := by
  rw [ofText_of_plain hplain, numeral_of_plain hplain, h]
  simp [exponent]

/-- Digits and nothing else are a number. -/
theorem mantissa_digits (hdigits : ∀ c ∈ whole, c.isDigit = true) (hsome : whole ≠ []) :
    mantissa 10 decimalDigit whole = some ((hundredths whole [] : ℚ) / 100, []) := by
  simp [mantissa, spanDigits_digits hdigits, hsome, hundredths]

/-- So are digits with a dot, with at least one digit. -/
theorem mantissa_dot (hwhole : ∀ c ∈ whole, c.isDigit = true)
    (hcents : ∀ c ∈ cents, c.isDigit = true) (hsome : whole ++ cents ≠ [])
    (htwo : cents.length ≤ 2) :
    mantissa 10 decimalDigit (whole ++ '.' :: cents) =
      some ((hundredths whole cents : ℚ) / 100, []) := by
  have hdot : ∀ c ∈ ('.' :: cents).head?, c.isDigit = false := by simp
  have hdigits : (whole ++ cents).map (fun c => c.toNat - '0'.toNat) ≠ [] := by
    simpa using hsome
  have hpower : (10 : ℚ) ^ cents.length * 10 ^ (2 - cents.length) = 100 := by
    rw [← pow_add, Nat.add_sub_cancel' htwo]
    norm_num
  have hvalue : ((valueOf 10 ((whole ++ cents).map fun c => c.toNat - '0'.toNat) : ℕ) : ℚ) /
      10 ^ cents.length = (hundredths whole cents : ℚ) / 100 := by
    rw [← hpower, hundredths]
    push_cast
    field_simp
  simp only [mantissa, spanDigits_append hwhole hdot, spanDigits_digits hcents,
    ← List.map_append, if_neg hdigits, List.length_map, Nat.cast_ofNat, hvalue]

end Plain

end Double

end Auctioneer
