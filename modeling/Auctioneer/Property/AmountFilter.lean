import Auctioneer.Model.AmountField
import Auctioneer.Model.Controllers
import Auctioneer.Proof.Amounts
import Mathlib.Data.List.TakeWhile

/-!
What the filters of the two amount fields let through. They ask `Double(String)`,
which reads more than amounts of money.
-/

namespace Auctioneer

open Double

/-- The texts that are amounts of money, or empty. -/
inductive IsAmount : List Char → Prop where
  | empty : IsAmount []
  | digits (whole : List Char) : whole ≠ [] → (∀ c ∈ whole, c.isDigit = true) → IsAmount whole
  | decimals (whole cents : List Char) : whole ≠ [] → (∀ c ∈ whole, c.isDigit = true) →
      (∀ c ∈ cents, c.isDigit = true) → cents.length ≤ 2 → IsAmount (whole ++ '.' :: cents)
  | fraction (cents : List Char) : cents ≠ [] → (∀ c ∈ cents, c.isDigit = true) →
      cents.length ≤ 2 → IsAmount ('.' :: cents)

/-- An edit is let through exactly when it leaves an amount or nothing. So what
it leaves is no number that is negative, not finite, or of more than two
decimals. -/
structure AcceptsAmounts (textField : String → NSRange → String → Bool) (oldText : String)
    (range : NSRange) (string : String) : Prop where
  accepts : textField oldText range string = true ↔
    IsAmount (edited oldText range string).toList
  denotes : textField oldText range string = true →
    ∀ value, Double.ofText (edited oldText range string) = some value →
      ∃ cents : ℕ, value = .finite (cents / 100)

/-- The number that the text begins with is below those that round to infinity. -/
def RoundsFinite (text : List Char) : Prop :=
  ∀ number ∈ mantissa 10 decimalDigit text, number.1 < overflow

/-- The range is one of characters, and the text that the edit would leave is
written in digits and dots and does not round to infinity, or is no number, or
has more than two characters after its dot. A range that cuts a character is let
through unseen. -/
def Graphemes.EditsPlainly (graphemes : Graphemes) (oldText : String) (range : NSRange)
    (string : String) : Prop :=
  match graphemes.rangeIn range oldText.toList with
  | none =>
      let newText := (edited oldText range string).toList
      IsAmount newText ∧ RoundsFinite newText
  | some (before, after) =>
      let newText := before ++ string.toList ++ after
      isPlain newText = true ∧ RoundsFinite newText ∨
        Double.ofText (String.ofList newText) = none ∨ 2 < numberOfDecimalDigits newText

section Amounts

variable {whole cents text : List Char}

theorem digit_ne_dot (hdigits : ∀ c ∈ whole, c.isDigit = true) : '.' ∉ whole := by
  intro hdot
  exact absurd (hdigits '.' hdot) (by decide)

theorem count_dot (hwhole : ∀ c ∈ whole, c.isDigit = true) :
    (whole ++ '.' :: cents).count '.' = 1 + cents.count '.' := by
  rw [List.count_append, List.count_eq_zero.mpr (digit_ne_dot hwhole), List.count_cons_self]
  omega

theorem numberOfDecimalDigits_digits (hwhole : ∀ c ∈ whole, c.isDigit = true) :
    numberOfDecimalDigits whole = 0 := by
  have hdrop : whole.dropWhile (· ≠ '.') = [] := by
    refine List.dropWhile_eq_nil_iff.mpr ?_
    intro c hc
    exact decide_eq_true (ne_of_mem_of_not_mem hc (digit_ne_dot hwhole))
  simp only [numberOfDecimalDigits, hdrop, List.length_nil, Nat.zero_sub]

theorem numberOfDecimalDigits_dot (hwhole : ∀ c ∈ whole, c.isDigit = true) :
    numberOfDecimalDigits (whole ++ '.' :: cents) = cents.length := by
  have hdrop : (whole ++ '.' :: cents).dropWhile (· ≠ '.') = '.' :: cents := by
    rw [List.dropWhile_append_of_pos, List.dropWhile_cons_of_neg (by simp)]
    intro c hc
    exact decide_eq_true (ne_of_mem_of_not_mem hc (digit_ne_dot hwhole))
  simp only [numberOfDecimalDigits, hdrop, List.length_cons, Nat.add_sub_cancel]

/-- A plain text is digits, or digits up to a first dot. -/
theorem plain_cases (h : isPlain text = true) :
    (∀ c ∈ text, c.isDigit = true) ∨ ∃ whole rest, text = whole ++ '.' :: rest ∧
      (∀ c ∈ whole, c.isDigit = true) ∧ isPlain rest = true := by
  induction text with
  | nil => exact .inl (by simp)
  | cons c text ih =>
      obtain ⟨hc, hrest⟩ := isPlain_cons.mp h
      rcases hc with hdigit | rfl
      · rcases ih hrest with hdigits | ⟨whole, rest, rfl, hwhole, hplain⟩
        · exact .inl (by simpa [hdigit] using hdigits)
        · exact .inr ⟨c :: whole, rest, rfl, by simpa [hdigit] using hwhole, hplain⟩
      · exact .inr ⟨[], text, rfl, by simp, hrest⟩

theorem IsAmount.plain (h : IsAmount text) : isPlain text = true := by
  cases h with
  | empty => rfl
  | digits _ _ hwhole => exact isPlain_of_digits hwhole
  | decimals whole cents _ hwhole hcents _ =>
      exact isPlain_append.mpr ⟨isPlain_of_digits hwhole,
        isPlain_cons.mpr ⟨.inr rfl, isPlain_of_digits hcents⟩⟩
  | fraction cents _ hcents _ => exact isPlain_cons.mpr ⟨.inr rfl, isPlain_of_digits hcents⟩

/-- An amount that is not empty is a whole number of hundredths. -/
theorem IsAmount.mantissa_eq (h : IsAmount text) (hsome : text ≠ []) :
    ∃ cents : ℕ, mantissa 10 decimalDigit text = some ((cents : ℚ) / 100, []) := by
  cases h with
  | empty => exact absurd rfl hsome
  | digits _ hwholeSome hwhole => exact ⟨_, mantissa_digits hwhole hwholeSome⟩
  | decimals whole cents hwholeSome hwhole hcents htwo =>
      have hdigits : whole ++ cents ≠ [] := List.append_ne_nil_of_left_ne_nil hwholeSome _
      exact ⟨_, mantissa_dot hwhole hcents hdigits htwo⟩
  | fraction cents hcentsSome hcents htwo =>
      have hvalue := mantissa_dot (List.forall_mem_nil _) hcents hcentsSome htwo
      rw [List.nil_append] at hvalue
      exact ⟨_, hvalue⟩

/-- What an amount reads as is a number of hundredths exactly when it does not
round to infinity. -/
theorem IsAmount.denotes_iff (h : IsAmount text) :
    (∀ value, Double.ofText (String.ofList text) = some value →
      ∃ cents : ℕ, value = .finite (cents / 100)) ↔ RoundsFinite text := by
  rcases eq_or_ne text [] with rfl | hsome
  · have hnone : Double.ofText (String.ofList []) = none := by decide +kernel
    simp [hnone, RoundsFinite, mantissa, spanDigits]
  obtain ⟨cents, hmantissa⟩ := h.mantissa_eq hsome
  have hvalue := ofText_of_mantissa h.plain hmantissa
  simp only [RoundsFinite, hmantissa, hvalue, Option.mem_some_iff, Option.some.injEq,
    forall_eq', ofValue]
  split
  · next hbelow => exact ⟨fun _ => hbelow, fun _ => ⟨cents, rfl⟩⟩
  · next hbeyond =>
    refine ⟨?_, fun hbelow => absurd hbelow hbeyond⟩
    rintro ⟨_, hfinite⟩
    cases hfinite

theorem IsAmount.numberOfDecimalDigits_le (h : IsAmount text) :
    numberOfDecimalDigits text ≤ 2 := by
  cases h with
  | empty => exact Nat.zero_le 2
  | digits _ _ hwhole =>
      rw [numberOfDecimalDigits_digits hwhole]
      exact Nat.zero_le 2
  | decimals whole cents _ hwhole _ htwo => rwa [numberOfDecimalDigits_dot hwhole]
  | fraction cents _ _ htwo =>
      have hcount : numberOfDecimalDigits ('.' :: cents) = cents.length :=
        numberOfDecimalDigits_dot (List.forall_mem_nil _)
      rwa [hcount]

theorem isDecimal_iff :
    isDecimal text = true ↔ (text = [] ∨ (Double.ofText (String.ofList text)).isSome) ∧
      text.count '.' ≤ 1 ∧ numberOfDecimalDigits text ≤ 2 := by
  simp [isDecimal, and_assoc]

/-- A number has at most one dot, so the test for dots adds nothing. -/
theorem count_dot_le (h : (Double.ofText (String.ofList text)).isSome) : text.count '.' ≤ 1 := by
  simpa using (ofText_oneDot h).2

theorem IsAmount.isDecimal (h : IsAmount text) : isDecimal text = true := by
  rw [isDecimal_iff]
  rcases eq_or_ne text [] with rfl | hsome
  · exact ⟨.inl rfl, Nat.zero_le 1, Nat.zero_le 2⟩
  · obtain ⟨cents, hmantissa⟩ := h.mantissa_eq hsome
    have hnumeric : (Double.ofText (String.ofList text)).isSome := by
      simp [ofText_of_mantissa h.plain hmantissa]
    exact ⟨.inr hnumeric, count_dot_le hnumeric, h.numberOfDecimalDigits_le⟩

/-- Written in digits and dots, what is let through is an amount. -/
theorem isAmount_of_isDecimal (hplain : isPlain text = true) (h : isDecimal text = true) :
    IsAmount text := by
  obtain ⟨hnumeric, hdots, htwo⟩ := isDecimal_iff.mp h
  rcases hnumeric with rfl | hnumeric
  · exact .empty
  rcases plain_cases hplain with hdigits | ⟨whole, cents, rfl, hwhole, hrest⟩
  · rcases eq_or_ne text [] with rfl | hsome
    · exact .empty
    · exact .digits text hsome hdigits
  rw [numberOfDecimalDigits_dot hwhole] at htwo
  have hnone : '.' ∉ cents := by
    rw [count_dot hwhole] at hdots
    exact List.count_eq_zero.mp (by omega)
  have hcents : ∀ c ∈ cents, c.isDigit = true := by
    intro c hc
    have hletter : c.isDigit = true ∨ c = '.' := by simpa using List.all_eq_true.mp hrest c hc
    exact hletter.resolve_right (ne_of_mem_of_not_mem hc hnone)
  rcases eq_or_ne whole [] with rfl | hsome
  · refine .fraction cents ?_ hcents htwo
    rintro rfl
    revert hnumeric
    decide +kernel
  · exact .decimals whole cents hsome hwhole hcents htwo

/-- The three tests let through exactly the amounts, except for numbers written
in other ways. -/
theorem isDecimal_iff_isAmount_iff :
    (isDecimal text = true ↔ IsAmount text) ↔
      isPlain text = true ∨ Double.ofText (String.ofList text) = none ∨
        2 < numberOfDecimalDigits text := by
  constructor
  · intro h
    by_contra hother
    simp only [not_or, not_lt] at hother
    obtain ⟨hplain, hnumeric, htwo⟩ := hother
    have hsome := Option.isSome_iff_ne_none.mpr hnumeric
    have hdecimal := isDecimal_iff.mpr ⟨.inr hsome, count_dot_le hsome, htwo⟩
    exact hplain (h.mp hdecimal).plain
  · rintro (hplain | hnone | hmore)
    · exact ⟨isAmount_of_isDecimal hplain, IsAmount.isDecimal⟩
    · refine ⟨fun h => ?_, IsAmount.isDecimal⟩
      rcases (isDecimal_iff.mp h).1 with rfl | hsome
      · exact .empty
      · simp [hnone] at hsome
    · refine ⟨fun h => ?_, IsAmount.isDecimal⟩
      exact absurd (isDecimal_iff.mp h).2.2 (not_le.mpr hmore)

/-- What passes the three tests and is written in digits and dots has to be
small as well. -/
theorem isDecimal_accepts_iff :
    ((isDecimal text = true ↔ IsAmount text) ∧ (isDecimal text = true → RoundsFinite text)) ↔
      isPlain text = true ∧ RoundsFinite text ∨ Double.ofText (String.ofList text) = none ∨
        2 < numberOfDecimalDigits text := by
  rw [isDecimal_iff_isAmount_iff]
  constructor
  · rintro ⟨hplain | hother, hfinite⟩
    · by_cases hdecimal : isDecimal text = true
      · exact .inl ⟨hplain, hfinite hdecimal⟩
      · refine .inr (or_iff_not_imp_left.mpr fun hnumeric => not_le.mp fun htwo => hdecimal ?_)
        have hsome := Option.isSome_iff_ne_none.mpr hnumeric
        exact isDecimal_iff.mpr ⟨.inr hsome, count_dot_le hsome, htwo⟩
    · exact .inr hother
  · rintro (⟨hplain, hfinite⟩ | hnone | hmore)
    · exact ⟨.inl hplain, fun _ => hfinite⟩
    · refine ⟨.inr (.inl hnone), fun hdecimal => ?_⟩
      rcases (isDecimal_iff.mp hdecimal).1 with rfl | hsome
      · exact IsAmount.empty.denotes_iff.mp (by simp [hnone])
      · simp [hnone] at hsome
    · refine ⟨.inr (.inr hmore), fun hdecimal => ?_⟩
      exact absurd (isDecimal_iff.mp hdecimal).2.2 (not_le.mpr hmore)

end Amounts

section Edits

variable {graphemes : Graphemes} {oldText string : String} {range : NSRange}
  {before after : List Char}

/-- A range of characters is replaced as Swift replaces it. -/
theorem edited_eq (h : graphemes.rangeIn range oldText.toList = some (before, after)) :
    edited oldText range string = String.ofList (before ++ string.toList ++ after) := by
  simp only [Graphemes.rangeIn, Option.bind_eq_bind, Option.bind_eq_some_iff,
    Option.ite_none_right_eq_some, Option.some.injEq, Prod.mk.injEq] at h
  obtain ⟨⟨first, rest⟩, hfirst, ⟨middle, last⟩, hmiddle, _, rfl, rfl⟩ := h
  dsimp only at hmiddle
  obtain ⟨htext, hlocation⟩ := Utf16.splitAt_eq_some hfirst
  obtain ⟨hrest, hlength⟩ := Utf16.splitAt_eq_some hmiddle
  rw [edited, htext, hrest, ← hlocation, ← hlength, Utf16.replace_encode, Utf16.decode_encode]

/-- Where what is let through is the amounts, what they read as is said by their
size. -/
theorem acceptsAmounts_iff_rounds {textField : String → NSRange → String → Bool} :
    AcceptsAmounts textField oldText range string ↔
      (textField oldText range string = true ↔ IsAmount (edited oldText range string).toList) ∧
      (textField oldText range string = true →
        RoundsFinite (edited oldText range string).toList) := by
  have hdenotes (h : IsAmount (edited oldText range string).toList) := h.denotes_iff
  rw [String.ofList_toList] at hdenotes
  constructor
  · intro h
    exact ⟨h.accepts, fun haccepted => (hdenotes (h.accepts.mp haccepted)).mp
      (h.denotes haccepted)⟩
  · rintro ⟨haccepts, hfinite⟩
    exact ⟨haccepts, fun haccepted => (hdenotes (haccepts.mp haccepted)).mpr
      (hfinite haccepted)⟩

/-- The filters accept exactly the amounts where the edit is plain. -/
theorem acceptsAmounts_iff :
    AcceptsAmounts (shouldChangeCharacters graphemes) oldText range string ↔
      graphemes.EditsPlainly oldText range string := by
  rw [acceptsAmounts_iff_rounds]
  unfold shouldChangeCharacters Graphemes.EditsPlainly
  cases hrange : graphemes.rangeIn range oldText.toList with
  | none => simp
  | some parts =>
      obtain ⟨before, after⟩ := parts
      simp only [edited_eq hrange, String.toList_ofList]
      exact isDecimal_accepts_iff

end Edits

/-- Each filter lets exactly the amounts through where the edit is plain. -/
theorem amount_filters_iff (graphemes : Graphemes) (oldText : String) (range : NSRange)
    (string : String) :
    (AcceptsAmounts (HomeFeedDetailsViewController.textField graphemes) oldText range string ↔
      graphemes.EditsPlainly oldText range string) ∧
    (AcceptsAmounts (OpenNewAuctionViewController.textField graphemes) oldText range string ↔
      graphemes.EditsPlainly oldText range string) :=
  ⟨acceptsAmounts_iff, acceptsAmounts_iff⟩

/-- Every scalar is a character of its own, except in a line break: what Unicode
says of ASCII. -/
def Graphemes.scalars : Graphemes where
  boundary before after := !(before.getLast? = some '\r' && after.head? = some '\n')
  start _ := rfl
  finish text := by simp
  ascii before c d after _ _ hbreak := by simpa [-not_and, not_and_or] using hbreak

/-- "1e9" is pasted into the empty field. -/
theorem not_amount_filters :
    ¬ ∀ oldText range string, AcceptsAmounts
      (HomeFeedDetailsViewController.textField Graphemes.scalars) oldText range string := by
  intro haccepts
  have haccepted : HomeFeedDetailsViewController.textField Graphemes.scalars "" ⟨0, 0⟩ "1e9" =
      true := by decide +kernel
  have hamount := (haccepts "" ⟨0, 0⟩ "1e9").accepts.mp haccepted
  have hedited : (edited "" ⟨0, 0⟩ "1e9").toList = ['1', 'e', '9'] := by decide +kernel
  rw [hedited] at hamount
  exact absurd hamount.plain (by decide)

section Held

variable {graphemes : Graphemes} {text : String} {range : NSRange}

theorem units_ascii {c : Char} (h : c.toNat < 128) : (Utf16.units c).length = 1 := by
  rw [Utf16.units, if_pos (by omega)]
  rfl

/-- In ASCII without line breaks every range is one of characters. -/
theorem rangeIn_isSome {text : List Char} (hascii : ∀ c ∈ text, c.toNat < 128 ∧ c ≠ '\r')
    (hrange : range.location + range.length ≤ (Utf16.encode text).length) :
    (graphemes.rangeIn range text).isSome := by
  have hboundary : ∀ before after, text = before ++ after →
      graphemes.boundary before after = true := by
    rintro before after rfl
    rcases List.eq_nil_or_concat before with rfl | ⟨before, c, rfl⟩
    · exact graphemes.start after
    cases after with
    | nil => exact graphemes.finish _
    | cons d after =>
        rw [List.concat_eq_append] at hascii ⊢
        have hc := hascii c (by simp)
        exact graphemes.ascii before c d after hc.1 (hascii d (by simp)).1 fun hbreak =>
          hc.2 hbreak.1
  obtain ⟨⟨before, rest⟩, hbefore⟩ := Option.isSome_iff_exists.mp
    (Utf16.splitAt_isSome (fun c hc => units_ascii (hascii c hc).1)
      (by omega : range.location ≤ (Utf16.encode text).length))
  obtain ⟨rfl, hlocation⟩ := Utf16.splitAt_eq_some hbefore
  rw [Utf16.encode_append, List.length_append] at hrange
  obtain ⟨⟨middle, after⟩, hmiddle⟩ := Option.isSome_iff_exists.mp
    (Utf16.splitAt_isSome (fun c hc => units_ascii (hascii c (by simp [hc])).1)
      (by omega : range.length ≤ (Utf16.encode rest).length))
  obtain ⟨rfl, _⟩ := Utf16.splitAt_eq_some hmiddle
  simp [Graphemes.rangeIn, hbefore, hmiddle, hboundary before (middle ++ after) rfl,
    hboundary (before ++ middle) after (by simp)]

/-- Numbers are such texts. -/
theorem number_ascii (h : text = "" ∨ (Double.ofText text).isSome) :
    ∀ c ∈ text.toList, c.toNat < 128 ∧ c ≠ '\r' := by
  intro c hc
  rcases h with rfl | hnumeric
  · cases hc
  · exact isNumberChar_ascii ((ofText_oneDot hnumeric).1 c hc)

/-- A text that a field can hold is empty or a number. -/
theorem Holds.number (h : Holds graphemes text) : text = "" ∨ (Double.ofText text).isSome := by
  refine h.invariant (fun text => text = "" ∨ (Double.ofText text).isSome) (.inl rfl) ?_
  intro text event text' _ hnumber _ htaken
  cases event with
  | reset => exact .inl (Option.some.inj htaken).symm
  | edit range string =>
      simp only [fieldStep, Option.ite_none_right_eq_some, Option.some.injEq] at htaken
      obtain ⟨hrange, htext⟩ := htaken
      split at htext
      · next haccepted =>
        -- the range converts, so the edit has been seen and its result is a number
        obtain ⟨⟨before, after⟩, hparts⟩ := Option.isSome_iff_exists.mp
          (rangeIn_isSome (number_ascii hnumber) hrange)
        rw [shouldChangeCharacters, hparts] at haccepted
        rw [← htext, edited_eq hparts]
        rcases (isDecimal_iff.mp haccepted).1 with hempty | hnumeric
        · exact .inl (by rw [hempty])
        · exact .inr hnumeric
      · rwa [← htext]

end Held

/-- What becomes of an amount text when it is submitted. An empty one is stopped:
by the check for it, or by one before it. Any other is a number. -/
structure Submits (graphemes : Graphemes) (text : String) : Prop where
  parses : text = "" ∨ (Double.ofText text).isSome
  bid : text = "" → ∀ item userName minimumBid now,
    HomeFeedDetailsViewController.bidSubmit (some item) (some userName) minimumBid text now =
      if item.openedBy = userName then
        some (.alert HomeFeedDetailsViewController.openedByBidder)
      else HomeFeedDetailsViewController.refuse HomeFeedDetailsViewController.belowMinimum
        minimumBid
  auction : text = "" → ∀ zone form signedIn now later, form.startingPrice = text →
    ∃ message, OpenNewAuctionViewController.submitAuction zone form signedIn now later =
      some (OpenNewAuctionViewController.missing message)
  converts : ∀ range : NSRange,
    range.location + range.length ≤ (Utf16.encode text.toList).length →
      (graphemes.rangeIn range text.toList).isSome

/-- Whatever the edits, what a field then holds can be submitted. -/
theorem amounts_submitted {graphemes : Graphemes} {text : String} (h : Holds graphemes text) :
    Submits graphemes text where
  parses := h.number
  bid := by
    rintro rfl item userName minimumBid now
    simp [HomeFeedDetailsViewController.bidSubmit]
  auction := by
    rintro rfl zone form signedIn now later hform
    unfold OpenNewAuctionViewController.submitAuction
    split_ifs
    · exact ⟨_, rfl⟩
    · exact ⟨_, rfl⟩
    · exact ⟨_, rfl⟩
  converts := fun _ hrange => rangeIn_isSome (number_ascii h.number) hrange

/-- "125" is typed, and its last digit is replaced by a pasted ".5". -/
theorem amounts_submitted_typed : Submits Graphemes.scalars "12.5" :=
  amounts_submitted (Machine.reachable_of_run
    [.edit ⟨0, 0⟩ "125", .edit ⟨2, 1⟩ ".5", .edit ⟨0, 4⟩ "-x"] (by decide +kernel))

end Auctioneer
