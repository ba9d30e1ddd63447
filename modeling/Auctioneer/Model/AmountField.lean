import Auctioneer.Library.Machine
import Auctioneer.Library.Utf16
import Auctioneer.Model.SwiftDouble

/-!
The two text fields for an amount: the filter that each form puts on them, and
the edits that UIKit makes when the filter lets it.
-/

namespace Auctioneer

/-- A range of a text, in UTF-16 code units. -/
structure NSRange where
  location : ℕ
  length : ℕ

/-- Where a text has a boundary between two of Swift's characters (extended
grapheme clusters): given what is before and what is after. Of the rules of
Unicode only those for ASCII are used. -/
structure Graphemes where
  boundary : List Char → List Char → Bool
  start : ∀ text, boundary [] text = true
  finish : ∀ text, boundary text [] = true
  ascii : ∀ before c d after, c.toNat < 128 → d.toNat < 128 → ¬ (c = '\r' ∧ d = '\n') →
    boundary (before ++ [c]) (d :: after) = true

/-- `Range(range, in: text)`, as the texts before and after it: `nil` unless both
ends are boundaries of characters. -/
def Graphemes.rangeIn (graphemes : Graphemes) (range : NSRange) (text : List Char) :
    Option (List Char × List Char) := do
  let (before, rest) ← Utf16.splitAt range.location text
  let (middle, after) ← Utf16.splitAt range.length rest
  if graphemes.boundary before rest && graphemes.boundary (before ++ middle) after then
    some (before, after)
  else none

/-- The characters after the first dot. -/
def numberOfDecimalDigits (text : List Char) : ℕ :=
  (text.dropWhile (· ≠ '.')).length - 1

/-- The three tests on the text that an edit would leave. The dots and the
characters after the first are counted as scalars: a text with a scalar outside
ASCII is no number, so these counts do not matter there. -/
def isDecimal (newText : List Char) : Bool :=
  let isNumeric := newText.isEmpty || (Double.ofText (String.ofList newText)).isSome
  let numberOfDots := newText.count '.'
  isNumeric && numberOfDots ≤ 1 && numberOfDecimalDigits newText ≤ 2

/-- `textField(_:shouldChangeCharactersIn:replacementString:)`. A range that
cannot be converted is let through. -/
def shouldChangeCharacters (graphemes : Graphemes) (oldText : String) (range : NSRange)
    (string : String) : Bool :=
  match graphemes.rangeIn range oldText.toList with
  | none => true
  | some (before, after) => isDecimal (before ++ string.toList ++ after)

/-- The filter of the bid. -/
def HomeFeedDetailsViewController.textField := shouldChangeCharacters

/-- The filter of the starting price. -/
def OpenNewAuctionViewController.textField := shouldChangeCharacters

/-- The text that UIKit makes of an edit. -/
def edited (oldText : String) (range : NSRange) (string : String) : String :=
  String.ofList (Utf16.decode (Utf16.replace (Utf16.encode oldText.toList)
    range.location range.length (Utf16.encode string.toList)))

/-- What happens to a field: an edit of a range that is in its text, or the form
is reset. -/
inductive FieldEvent where
  | edit (range : NSRange) (string : String)
  | reset

/-- The text of a field after an event. An edit that the filter refuses leaves
it. -/
def fieldStep (graphemes : Graphemes) (text : String) : FieldEvent → Option String
  | .edit range string =>
      if range.location + range.length ≤ (Utf16.encode text.toList).length then
        some (if shouldChangeCharacters graphemes text range string then
          edited text range string else text)
      else none
  | .reset => some ""

/-- The texts that a field can hold. -/
def Holds (graphemes : Graphemes) (text : String) : Prop :=
  Machine.Reachable (fieldStep graphemes) "" text

end Auctioneer
