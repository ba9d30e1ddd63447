import Auctioneer.Model.Database

/-!
What may be stored: the checks that the client makes of keys and of leaves before
it sends a value, with the texts of their exceptions.
-/

namespace FirebaseDatabase

open Auctioneer (Value)

namespace FValidation

/-- `kInvalidKeyCharacters` -/
def invalidKeyCharacters : List Char := ['[', ']', '.', '#', '$', '/']

def isValidKey (key : String) : Bool :=
  !key.isEmpty && key.toList.all fun c => !invalidKeyCharacters.contains c

/-- `kFirebaseMaxLeafSize` -/
def maxLeafSize : ℕ := 1024 * 1024 * 10

/-- `kFirebaseMaxObjectDepth` -/
def maxObjectDepth : ℕ := 1000

/-- The place in the text of an exception: the first components of the path. -/
def pathString (count : ℕ) (path : List String) : String := ".".intercalate (path.take count)

/-- `isValidLeafValue` of a text or a number. -/
def validLeafValue (fn : String) (path : List String) : Value → Except String Unit
  | .number _ => .ok ()
  | .string theString =>
      if maxLeafSize < theString.utf8ByteSize then
        .error s!"({fn}) String exceeds max size of {maxLeafSize} utf8 bytes: {pathString 50 path}"
      else .ok ()

/-- The keys of the payload's metadata pass, and the valid ones. -/
def validDictionaryKey (fn : String) (path : List String) (key : String) : Except String Unit :=
  if key ≠ ".priority" ∧ key ≠ ".value" ∧ key ≠ ".sv" ∧ isValidKey key = false then
    .error (s!"({fn}) Invalid key in object at path: {pathString 50 path}. " ++
      "Keys must be non-empty and cannot contain '/' '.' '#' '$' '[' or ']'")
  else .ok ()

/-- The check at the start of `internalNodeFrom`. -/
def validDepth (fn : String) (path : List String) (depth : ℕ) : Except String Unit :=
  if maxObjectDepth < depth then
    .error s!"({fn}) Max object depth exceeded: {pathString 100 path}..."
  else .ok ()

theorem validDepth_eq_ok {fn : String} {path : List String} {depth : ℕ} :
    validDepth fn path depth = .ok () ↔ depth ≤ maxObjectDepth := by
  rw [validDepth]
  split <;> simp <;> omega

end FValidation

end FirebaseDatabase
