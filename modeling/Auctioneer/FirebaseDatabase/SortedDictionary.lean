import Auctioneer.FirebaseDatabase.LLRBNode

/-!
The client's sorted dictionary: arrays of keys and values, until it grows over a
threshold, and from then on a tree. A throw is an error with its reason.
-/

namespace FirebaseDatabase

variable {κ ν : Type*} (cmp : κ → κ → Ordering)

/-- The entries of a dictionary in the order of their keys, unless two keys have
the same. -/
def sortedEntries (dictionary : List (κ × ν)) : Except String (List (κ × ν)) :=
  let sorted := dictionary.mergeSort fun entry later => (cmp entry.1 later.1).isLE
  if sorted.IsChain fun entry later => cmp entry.1 later.1 = .lt then .ok sorted
  else .error "Can't create FImmutableSortedDictionary with keys with same ordering!"

structure FTreeSortedDictionary (κ ν : Type*) where
  root : FLLRBNode κ ν

namespace FTreeSortedDictionary

/-- `get` goes down from a node. -/
def getFrom (key : κ) : FLLRBNode κ ν → Option ν
  | .empty => none
  | .node _ left key' value right =>
      match cmp key key' with
      | .eq => some value
      | .lt => getFrom key left
      | .gt => getFrom key right

def get (self : FTreeSortedDictionary κ ν) (key : κ) : Option ν := getFrom cmp key self.root

def contains (self : FTreeSortedDictionary κ ν) (key : κ) : Bool := (self.get cmp key).isSome

def insertKey (self : FTreeSortedDictionary κ ν) (aKey : κ) (aValue : ν) :
    FTreeSortedDictionary κ ν where
  root := (self.root.insertKey cmp aKey aValue).withColor .black

def removeKey (self : FTreeSortedDictionary κ ν) (aKey : κ) : FTreeSortedDictionary κ ν :=
  if !self.contains cmp aKey then self
  else { root := (self.root.remove cmp aKey).withColor .black }

/-- `getPredecessorKey` goes down from a node, below the nodes it went right at:
`rightParent` is the key of the last of them. -/
def predecessorFrom (key : κ) (rightParent : Option κ) : FLLRBNode κ ν → Except String (Option κ)
  | .empty => .error "getPredecessorKey called with nonexistent key."
  | .node _ left key' _ right =>
      match cmp key key' with
      | .eq => .ok (if !left.isEmpty then left.maxKey else rightParent)
      | .lt => predecessorFrom key rightParent left
      | .gt => predecessorFrom key (some key') right

def getPredecessorKey (self : FTreeSortedDictionary κ ν) (key : κ) : Except String (Option κ) :=
  predecessorFrom cmp key none self.root

/-- The tree over a part of the sorted entries, none if a key is read past them. -/
def buildBalancedTree (entries : List (κ × ν)) (startIndex length : Nat) :
    Option (FLLRBNode κ ν) :=
  let length' := Nat.min (entries.length - startIndex) length
  if length' = 0 then some .empty
  else if length' = 1 then
    entries[startIndex]?.map fun entry => .node .black .empty entry.1 entry.2 .empty
  else
    let middle := length' / 2
    do
      let left ← buildBalancedTree entries startIndex middle
      let right ← buildBalancedTree entries (startIndex + middle + 1) middle
      let entry ← entries[startIndex + middle]?
      some (.node .black left entry.1 entry.2 right)
termination_by length
decreasing_by
  all_goals
    have hle : length' ≤ length := Nat.min_le_right _ _
    omega

/-- A node over the last `chunkSize` of the entries before `index`: those after
its own make its right child, and what is built from the ones before, its left. -/
def buildPennant (entries : List (κ × ν)) (color : FLLRBColor) (chunkSize index : Nat)
    (next : Nat → Option (FLLRBNode κ ν)) : Option (FLLRBNode κ ν) :=
  if index < chunkSize then none
  else do
    let startIndex := index - chunkSize + 1
    let entry ← entries[index - chunkSize]?
    let childTree ← buildBalancedTree entries startIndex (chunkSize - 1)
    let left ← next (index - chunkSize)
    some (.node color left entry.1 entry.2 childTree)

/-- The digits of the length in base 1 and 2, from the most significant: one
pennant or two for each. The bit of a digit 1 is 0. -/
def rootFrom12List (entries : List (κ × ν)) (bits : Nat) : Nat → Nat → Option (FLLRBNode κ ν)
  | 0, _ => some .empty
  | current + 1, index =>
      let isOne := !bits.testBit current
      let chunkSize := 2 ^ current
      let rest := rootFrom12List entries bits current
      if isOne then buildPennant entries .black chunkSize index rest
      else
        buildPennant entries .black chunkSize index fun index =>
          buildPennant entries .red chunkSize index rest

def fromEntries (entries : List (κ × ν)) : Option (FLLRBNode κ ν) :=
  let count := (entries.length + 1).log2
  rootFrom12List entries ((entries.length + 1) &&& (2 ^ count - 1)) count entries.length

/-- A key read past the array would be a throw of its own. -/
def fromDictionary (dictionary : List (κ × ν)) : Except String (FTreeSortedDictionary κ ν) := do
  let entries ← sortedEntries cmp dictionary
  match fromEntries entries with
  | some root => .ok { root }
  | none => .error "NSRangeException"

end FTreeSortedDictionary

/-- The two arrays are one, of pairs. -/
structure FArraySortedDictionary (κ ν : Type*) where
  entries : List (κ × ν)

namespace FArraySortedDictionary

/-- The two loops from the front, as the position they stop at. -/
def findInsertPositionForKey (self : FArraySortedDictionary κ ν) (key : κ) : Nat :=
  (self.entries.takeWhile fun entry => cmp entry.1 key = .lt).length

def findKeyFrom (key : κ) (pos : Nat) : List (κ × ν) → Option Nat
  | [] => none
  | entry :: rest =>
      match cmp key entry.1 with
      | .eq => some pos
      | .lt => none
      | .gt => findKeyFrom key (pos + 1) rest

def findKey (self : FArraySortedDictionary κ ν) (key : κ) : Option Nat :=
  findKeyFrom cmp key 0 self.entries

def get (self : FArraySortedDictionary κ ν) (key : κ) : Option ν :=
  match self.findKey cmp key with
  | none => none
  | some pos => self.entries[pos]?.map Prod.snd

def contains (self : FArraySortedDictionary κ ν) (key : κ) : Bool := (self.findKey cmp key).isSome

def removeKey (self : FArraySortedDictionary κ ν) (key : κ) : FArraySortedDictionary κ ν :=
  match self.findKey cmp key with
  | none => self
  | some pos => { entries := self.entries.eraseIdx pos }

def getPredecessorKey (self : FArraySortedDictionary κ ν) (key : κ) : Except String (Option κ) :=
  match self.findKey cmp key with
  | none => .error "Can't get predecessor key for non-existent key"
  | some 0 => .ok none
  | some (pos + 1) => .ok (self.entries[pos]?.map Prod.fst)

def fromDictionary (dictionary : List (κ × ν)) : Except String (FArraySortedDictionary κ ν) := do
  let entries ← sortedEntries cmp dictionary
  .ok { entries }

end FArraySortedDictionary

inductive FImmutableSortedDictionary (κ ν : Type*) where
  | array (self : FArraySortedDictionary κ ν)
  | tree (self : FTreeSortedDictionary κ ν)

/-- `SORTED_DICTIONARY_ARRAY_TO_RB_TREE_SIZE_THRESHOLD` -/
def arrayToTreeSizeThreshold : Nat := 25

namespace FImmutableSortedDictionary

def dictionaryWithComparator : FImmutableSortedDictionary κ ν := .array { entries := [] }

def fromDictionary (dictionary : List (κ × ν)) :
    Except String (FImmutableSortedDictionary κ ν) :=
  if dictionary.length ≤ arrayToTreeSizeThreshold then
    (FArraySortedDictionary.fromDictionary cmp dictionary).map .array
  else (FTreeSortedDictionary.fromDictionary cmp dictionary).map .tree

/-- An array over the threshold becomes a tree with the first key that is new. -/
def insertKey (key : κ) (value : ν) :
    FImmutableSortedDictionary κ ν → Except String (FImmutableSortedDictionary κ ν)
  | .tree self => .ok (.tree (self.insertKey cmp key value))
  | .array self =>
      match self.findKey cmp key with
      | none =>
          if arrayToTreeSizeThreshold ≤ self.entries.length then
            (FTreeSortedDictionary.fromDictionary cmp (self.entries ++ [(key, value)])).map .tree
          else
            let newPos := self.findInsertPositionForKey cmp key
            .ok (.array { entries := self.entries.insertIdx newPos (key, value) })
      | some pos => .ok (.array { entries := self.entries.set pos (key, value) })

def removeKey (key : κ) : FImmutableSortedDictionary κ ν → FImmutableSortedDictionary κ ν
  | .tree self => .tree (self.removeKey cmp key)
  | .array self => .array (self.removeKey cmp key)

def get (key : κ) : FImmutableSortedDictionary κ ν → Option ν
  | .tree self => self.get cmp key
  | .array self => self.get cmp key

def contains (key : κ) : FImmutableSortedDictionary κ ν → Bool
  | .tree self => self.contains cmp key
  | .array self => self.contains cmp key

def getPredecessorKey (key : κ) :
    FImmutableSortedDictionary κ ν → Except String (Option κ)
  | .tree self => self.getPredecessorKey cmp key
  | .array self => self.getPredecessorKey cmp key

def count : FImmutableSortedDictionary κ ν → Nat
  | .tree self => self.root.count
  | .array self => self.entries.length

def minKey : FImmutableSortedDictionary κ ν → Option κ
  | .tree self => self.root.minKey
  | .array self => self.entries.head?.map Prod.fst

def maxKey : FImmutableSortedDictionary κ ν → Option κ
  | .tree self => self.root.maxKey
  | .array self => self.entries.getLast?.map Prod.fst

/-- The entries in the order of `enumerateKeysAndObjectsUsingBlock:`. -/
def entries : FImmutableSortedDictionary κ ν → List (κ × ν)
  | .tree self => self.root.entries
  | .array self => self.entries

section Size

variable [SizeOf κ] [SizeOf ν]

theorem sizeOf_lt_of_mem_root {root : FLLRBNode κ ν} {entry : κ × ν} (h : entry ∈ root.entries) :
    sizeOf entry.2 < sizeOf root := by
  induction root with
  | empty => cases h
  | node color left key value right ihleft ihright =>
      rw [FLLRBNode.entries, List.mem_append, List.mem_cons] at h
      rw [FLLRBNode.node.sizeOf_spec]
      rcases h with hleft | rfl | hright
      · have hlt := ihleft hleft
        omega
      · change sizeOf value < _
        omega
      · have hlt := ihright hright
        omega

theorem sizeOf_lt_of_mem {d : FImmutableSortedDictionary κ ν} {entry : κ × ν}
    (h : entry ∈ d.entries) : sizeOf entry.2 < sizeOf d := by
  cases d with
  | tree self =>
      cases self with
      | mk root =>
          have hlt : sizeOf entry.2 < sizeOf root := sizeOf_lt_of_mem_root h
          rw [tree.sizeOf_spec, FTreeSortedDictionary.mk.sizeOf_spec]
          omega
  | array self =>
      cases self with
      | mk entries =>
          have hlt : sizeOf entry < sizeOf entries := List.sizeOf_lt_of_mem h
          cases entry with
          | mk key value =>
              rw [Prod.mk.sizeOf_spec] at hlt
              rw [array.sizeOf_spec, FArraySortedDictionary.mk.sizeOf_spec]
              dsimp only
              omega

end Size

end FImmutableSortedDictionary

end FirebaseDatabase
