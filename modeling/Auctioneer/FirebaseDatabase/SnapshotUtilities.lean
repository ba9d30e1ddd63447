import Auctioneer.FirebaseDatabase.Node
import Auctioneer.FirebaseDatabase.Validation
import Auctioneer.Library.Traverse

/-!
What the client makes of a JSON value that is stored, and what a snapshot gives
back for it. The payload keys `.priority`, `.value` and `.sv` are left out.
-/

namespace FirebaseDatabase

open Auctioneer (Value)
open FUtilities (compareKey)
open SortedList (Ascending)

/-- A value that the app stores or reads. The entries of a dictionary are in the
order in which it enumerates them. -/
inductive Json where
  | null
  | value (value : Value)
  | dictionary (dval : List (String × Json))
  | array (aval : List Json)

namespace FSnapshotUtilities

open FNode FValidation

/-- `kPayloadMetadataPrefix` is a dot. -/
def hasMetadataPrefix (key : String) : Bool := key.toList.head? = some '.'

/-- The node of the children that are not empty. -/
def childrenNode (children : List (String × FNode Value)) : Except String (FNode Value) :=
  if children.isEmpty then .ok emptyNode
  else (FImmutableSortedDictionary.fromDictionary compareKey children).map .children

mutual

/-- `internalNodeFrom` without a priority, for the function `fn` of the API. -/
def nodeFrom (fn : String) (depth : ℕ) (path : List String) :
    Json → Except String (FNode Value)
  | .null => do
      validDepth fn path depth
      .ok emptyNode
  | .value value => do
      validDepth fn path depth
      validLeafValue fn path value
      .ok (.leaf value)
  | .dictionary dval => do
      validDepth fn path depth
      let children ← dictionaryChildren fn depth path dval
      childrenNode children
  | .array aval => do
      validDepth fn path depth
      let children ← arrayChildren fn depth path 0 aval
      childrenNode children

def dictionaryChildren (fn : String) (depth : ℕ) (path : List String) :
    List (String × Json) → Except String (List (String × FNode Value))
  | [] => .ok []
  | (key, value) :: rest => do
      validDictionaryKey fn path key
      if hasMetadataPrefix key then dictionaryChildren fn depth path rest
      else do
        let childNode ← nodeFrom fn (depth + 1) (path ++ [key]) value
        let children ← dictionaryChildren fn depth path rest
        .ok (if childNode.isEmpty then children else (key, childNode) :: children)

/-- The items from the `i`th on. -/
def arrayChildren (fn : String) (depth : ℕ) (path : List String) (i : ℕ) :
    List Json → Except String (List (String × FNode Value))
  | [] => .ok []
  | item :: rest => do
      let childNode ← nodeFrom fn (depth + 1) (path ++ [toString i]) item
      let children ← arrayChildren fn depth path (i + 1) rest
      .ok (if childNode.isEmpty then children else (toString i, childNode) :: children)

end

end FSnapshotUtilities

namespace FUtilities

/-- The digits at the front, without the bound of `NSInteger`. -/
def scanInteger (text : List Char) : Option ℕ :=
  let digits := text.takeWhile Char.isDigit
  if digits.isEmpty then none else some (Nat.ofDigitChars 10 digits 0)

/-- `isDecimalDigit` is the `decimalDigitCharacterSet`, that of all scripts. -/
def intForString (isDecimalDigit : Char → Bool) (string : String) : Option ℕ :=
  if string.toList.all isDecimalDigit then scanInteger string.toList else none

end FUtilities

namespace FNode

open FUtilities (intForString)

/-- A key that may be the index of an array: a leading zero makes it a text. -/
def integerKey (isDecimalDigit : Char → Bool) (key : String) : Option ℕ :=
  if key.toList.head? = some '0' ∧ 1 < key.length then none else intForString isDecimalDigit key

/-- `maxKey` after the loop over the children, if all their keys are integers. -/
def maxIntegerKey (isDecimalDigit : Char → Bool) (maxKey : ℕ) : List String → Option ℕ
  | [] => some maxKey
  | key :: keys =>
      match integerKey isDecimalDigit key with
      | none => none
      | some keyAsInt =>
          maxIntegerKey isDecimalDigit (if maxKey < keyAsInt then keyAsInt else maxKey) keys

/-- What `valForExport:NO` makes of the dictionary of the children's values: an
array where at least half of its items are there. -/
def exportChildren (isDecimalDigit : Char → Bool) (obj : List (String × Json)) : Json :=
  if obj.isEmpty then .null
  else
    match maxIntegerKey isDecimalDigit 0 (obj.map Prod.fst) with
    | none => .dictionary obj
    | some maxKey =>
        if maxKey < 2 * obj.length then
          .array ((List.range (maxKey + 1)).map fun i => (obj.lookup (toString i)).getD .null)
        else .dictionary obj

/-- `valForExport:NO` -/
def val (isDecimalDigit : Char → Bool) : FNode Value → Json
  | .leaf value => .value value
  | .children someChildren =>
      exportChildren isDecimalDigit
        (someChildren.entries.attach.map fun entry => (entry.1.1, val isDecimalDigit entry.1.2))
termination_by self => sizeOf self
decreasing_by
  have hlt := FImmutableSortedDictionary.sizeOf_lt_of_mem entry.2
  rw [FNode.children.sizeOf_spec]
  omega

theorem val_children (isDecimalDigit : Char → Bool)
    (someChildren : FImmutableSortedDictionary String (FNode Value)) :
    val isDecimalDigit (.children someChildren) =
      exportChildren isDecimalDigit
        (someChildren.entries.map fun entry => (entry.1, val isDecimalDigit entry.2)) := by
  rw [val]
  exact congrArg _ (@List.attach_map_val _ _ someChildren.entries
    fun entry => (entry.1, val isDecimalDigit entry.2))

end FNode

end FirebaseDatabase
