import Auctioneer.FirebaseDatabase.LLRBNode
import Auctioneer.Library.SortedList

/-!
The balance of the trees. A node that `check` accepts stays one under insertion
and removal of any key, and has the entries that a sorted list would have.
-/

namespace FirebaseDatabase

/-- What a node adds to the number of black ones. -/
def FLLRBColor.weight : FLLRBColor → Nat
  | .red => 0
  | .black => 1

@[simp] theorem FLLRBColor.weight_red : FLLRBColor.red.weight = 0 := rfl

@[simp] theorem FLLRBColor.weight_black : FLLRBColor.black.weight = 1 := rfl

namespace FLLRBNode

variable {κ ν : Type*} {cmp : κ → κ → Ordering}

/-- What `check` asks for: no red node has a red child or is a right child, and
`height` black nodes are on each way down. -/
inductive Balanced : FLLRBNode κ ν → FLLRBColor → Nat → Prop where
  | empty : Balanced .empty .black 0
  | red {left right : FLLRBNode κ ν} {key : κ} {value : ν} {height : Nat} :
      Balanced left .black height → Balanced right .black height →
      Balanced (.node .red left key value right) .red height
  | black {left right : FLLRBNode κ ν} {color : FLLRBColor} {key : κ} {value : ν}
      {height : Nat} :
      Balanced left color height → Balanced right .black height →
      Balanced (.node .black left key value right) .black (height + 1)

variable {t left right : FLLRBNode κ ν} {color : FLLRBColor} {key aKey : κ} {value aValue : ν}
  {height : Nat}

theorem Balanced.isRed (h : Balanced t color height) : t.isRed = decide (color = .red) := by
  cases h <;> rfl

theorem Balanced.not_isRed (h : Balanced t .black height) : t.isRed = false := by
  simpa using h.isRed

/-- A red node has a black left child. -/
theorem Balanced.left_not_isRed (h : Balanced t .red height) : t.left.isRed = false := by
  cases h with
  | red hleft _ => exact hleft.not_isRed

theorem Balanced.check (h : Balanced t color height) : t.check = some height := by
  induction h with
  | empty => rfl
  | red hleft hright ihleft ihright =>
      simp [FLLRBNode.check, hleft.not_isRed, hright.not_isRed, ihleft, ihright]
  | black hleft hright ihleft ihright =>
      simp [FLLRBNode.check, hright.not_isRed, ihleft, ihright]

theorem Balanced.two_pow_le (h : Balanced t color height) : 2 ^ height ≤ t.count + 1 := by
  induction h with
  | empty => simp [count]
  | red _ _ ihleft ihright =>
      simp only [count]
      omega
  | black _ _ ihleft ihright =>
      simp only [count, pow_succ]
      omega

section FixUp

variable {c : FLLRBColor}

@[simp] theorem left_node : (node color left key value right).left = left := rfl
@[simp] theorem right_node : (node color left key value right).right = right := rfl
@[simp] theorem withLeft_node (left' : FLLRBNode κ ν) :
    (node color left key value right).withLeft left' = .node color left' key value right := rfl
@[simp] theorem left_empty : (empty : FLLRBNode κ ν).left = .empty := rfl
@[simp] theorem right_empty : (empty : FLLRBNode κ ν).right = .empty := rfl
@[simp] theorem isRed_empty : (empty : FLLRBNode κ ν).isRed = false := rfl
@[simp] theorem isRed_node :
    (node color left key value right).isRed = decide (color = .red) := by
  cases color <;> rfl

/-- With a black right child and no two red nodes in a row nothing is fixed. -/
theorem fixUp_eq_self (hright : right.isRed = false)
    (hleft : left.isRed = true → left.left.isRed = false) :
    fixUp (.node color left key value right) = .node color left key value right := by
  cases hred : left.isRed with
  | false => simp [fixUp, hright, hred]
  | true => simp [fixUp, hright, hred, hleft hred]

/-- A red right child beside a black one leans left. -/
theorem fixUp_lean {middle right' : FLLRBNode κ ν} {key' : κ} {value' : ν}
    (hleft : left.isRed = false) (hright : right'.isRed = false) :
    fixUp (.node color left key value (.node .red middle key' value' right')) =
      .node color (.node .red left key value middle) key' value' right' := by
  simp [fixUp, hleft, hright, rotateLeft]

/-- Two red children pass their color up. -/
theorem fixUp_flip (hleft : left.isRed = true) (hright : right.isRed = true)
    (hleftleft : left.left.isRed = false) :
    fixUp (.node color left key value right) =
      .node color.flip left.flipped key value right.flipped := by
  simp [fixUp, hleft, hright, hleftleft, colorFlip]

/-- Two red nodes in a row are turned into one with two children, which pass
their color up. -/
theorem fixUp_turn {outer middle : FLLRBNode κ ν} {key' : κ} {value' : ν}
    (houter : outer.isRed = true) (hright : right.isRed = false) :
    fixUp (.node color (.node .red outer key' value' middle) key value right) =
      .node color.flip outer.flipped key' value' (.node .black middle key value right) := by
  simp [fixUp, houter, hright, rotateRight, colorFlip]

end FixUp

/-- A red node with a red left child: the one fault that a node may leave to the
node above. -/
inductive Leaning : FLLRBNode κ ν → Nat → Prop where
  | mk {left right : FLLRBNode κ ν} {key : κ} {value : ν} {height : Nat} :
      Balanced left .red height → Balanced right .black height →
      Leaning (.node .red left key value right) height

theorem Balanced.flipped_red (h : Balanced t .red height) :
    Balanced t.flipped .black (height + 1) := by
  cases h with
  | red hleft hright => exact .black hleft hright

theorem Balanced.flipped_black (h : Balanced t .black (height + 1)) (hleft : t.left.isRed = false) :
    Balanced t.flipped .red height := by
  cases h with
  | @black _ _ color _ _ _ hl hr =>
      cases color with
      | red => simp [hl.isRed] at hleft
      | black => exact .red hl hr

theorem Balanced.left_left (h : Balanced t color height) (hred : t.isRed = true) :
    t.left.isRed = false := by
  cases h with
  | red hleft _ => exact hleft.not_isRed
  | empty | black => cases hred

/-- A black node over any two balanced children. -/
theorem fixUp_black {c c' : FLLRBColor} (hleft : Balanced left c height)
    (hright : Balanced right c' height) :
    Balanced (fixUp (.node .black left key value right))
      (if c = .red ∧ c' = .red then .red else .black) (height + 1) := by
  cases c' with
  | black =>
      rw [fixUp_eq_self hright.not_isRed hleft.left_left]
      simpa using Balanced.black hleft hright
  | red =>
      cases c with
      | red =>
          rw [fixUp_flip (by simp [hleft.isRed]) (by simp [hright.isRed]) hleft.left_not_isRed]
          simpa using Balanced.red hleft.flipped_red hright.flipped_red
      | black =>
          cases hright with
          | red hmiddle hright =>
              rw [fixUp_lean hleft.not_isRed hright.not_isRed]
              simpa using Balanced.black (.red hleft hmiddle) hright

/-- A red node over black children. -/
theorem fixUp_red (hleft : Balanced left .black height) (hright : Balanced right .black height) :
    Balanced (fixUp (.node .red left key value right)) .red height := by
  rw [fixUp_eq_self hright.not_isRed hleft.left_left]
  exact .red hleft hright

/-- A red node over one red child leaves the fault to the node above. -/
theorem fixUp_leaning {c c' : FLLRBColor} (hleft : Balanced left c height)
    (hright : Balanced right c' height) (hone : (c = .red) ≠ (c' = .red)) :
    Leaning (fixUp (.node .red left key value right)) height := by
  cases c' with
  | black =>
      cases c with
      | black => simp at hone
      | red =>
          rw [fixUp_eq_self hright.not_isRed hleft.left_left]
          exact .mk hleft hright
  | red =>
      cases c with
      | red => simp at hone
      | black =>
          cases hright with
          | red hmiddle hright =>
              rw [fixUp_lean hleft.not_isRed hright.not_isRed]
              exact .mk (.red hleft hmiddle) hright

/-- A red node over two red ones turns black. -/
theorem fixUp_red_red (hleft : Balanced left .red height) (hright : Balanced right .red height) :
    Balanced (fixUp (.node .red left key value right)) .black (height + 1 + 1) := by
  rw [fixUp_flip (by simp [hleft.isRed]) (by simp [hright.isRed]) hleft.left_not_isRed]
  exact .black hleft.flipped_red hright.flipped_red

/-- The fault of a left child is repaired. -/
theorem fixUp_of_leaning (hleft : Leaning left height) (hright : Balanced right .black height) :
    Balanced (fixUp (.node .black left key value right)) .red (height + 1) := by
  cases hleft with
  | mk houter hmiddle =>
      rw [fixUp_turn (by simp [houter.isRed]) hright.not_isRed]
      exact .red houter.flipped_red (.black hmiddle hright)

theorem Balanced.blackened (h : Balanced t color height) :
    ∃ height', Balanced (t.withColor .black) .black height' := by
  cases h with
  | empty => exact ⟨_, .empty⟩
  | red hleft hright => exact ⟨_, .black hleft hright⟩
  | black hleft hright => exact ⟨_, .black hleft hright⟩

/-- What an insertion may leave. -/
def Inserted (color : FLLRBColor) (t : FLLRBNode κ ν) (height : Nat) : Prop :=
  (∃ c, Balanced t c height) ∨ color = .red ∧ Leaning t height

theorem Balanced.insertKey (h : Balanced t color height) :
    Inserted color (insertKey cmp aKey aValue t) height := by
  induction h with
  | empty => exact .inl ⟨_, .red .empty .empty⟩
  | @red left right key value height hleft hright ihleft ihright =>
      obtain ⟨c, hleft'⟩ := ihleft.resolve_right (by simp)
      obtain ⟨c', hright'⟩ := ihright.resolve_right (by simp)
      rw [FLLRBNode.insertKey]
      cases cmp aKey key with
      | lt =>
          cases c with
          | black => exact .inl ⟨_, fixUp_red hleft' hright⟩
          | red => exact .inr ⟨rfl, fixUp_leaning hleft' hright (by simp)⟩
      | eq => exact .inl ⟨_, fixUp_red hleft hright⟩
      | gt =>
          cases c' with
          | black => exact .inl ⟨_, fixUp_red hleft hright'⟩
          | red => exact .inr ⟨rfl, fixUp_leaning hleft hright' (by simp)⟩
  | @black left right c key value height hleft hright ihleft ihright =>
      obtain ⟨c', hright'⟩ := ihright.resolve_right (by simp)
      rw [FLLRBNode.insertKey]
      cases cmp aKey key with
      | lt =>
          rcases ihleft with ⟨c', hleft'⟩ | ⟨_, hleaning⟩
          · exact .inl ⟨_, fixUp_black hleft' hright⟩
          · exact .inl ⟨_, fixUp_of_leaning hleaning hright⟩
      | eq => exact .inl ⟨_, fixUp_black hleft hright⟩
      | gt => exact .inl ⟨_, fixUp_black hleft hright'⟩

section Entries

@[simp] theorem entries_flipped (t : FLLRBNode κ ν) : t.flipped.entries = t.entries := by
  cases t <;> rfl

@[simp] theorem entries_withColor (t : FLLRBNode κ ν) (color : FLLRBColor) :
    (t.withColor color).entries = t.entries := by
  cases t <;> rfl

theorem not_isEmpty_of_isRed (h : t.isRed = true) : t.isEmpty = false := by
  cases t with
  | empty => cases h
  | node => rfl

theorem entries_rotateLeft (h : t.right.isEmpty = false) : t.rotateLeft.entries = t.entries := by
  rcases t with _ | ⟨_, _, _, _, _ | _⟩ <;> simp_all [rotateLeft, entries, isEmpty]

theorem entries_rotateRight (h : t.left.isEmpty = false) : t.rotateRight.entries = t.entries := by
  rcases t with _ | ⟨_, _ | _, _, _, _⟩ <;> simp_all [rotateRight, entries, isEmpty]

@[simp] theorem entries_colorFlip (t : FLLRBNode κ ν) : t.colorFlip.entries = t.entries := by
  cases t <;> simp [colorFlip, entries]

/-- Rotations move entries nowhere: a child that goes up is there. -/
@[simp] theorem entries_fixUp (t : FLLRBNode κ ν) : t.fixUp.entries = t.entries := by
  have hleft : (if t.right.isRed && !t.left.isRed then t.rotateLeft else t).entries =
      t.entries := by
    split
    · next h =>
      simp only [Bool.and_eq_true] at h
      exact entries_rotateLeft (not_isEmpty_of_isRed h.1)
    · rfl
  unfold fixUp
  generalize (if t.right.isRed && !t.left.isRed then t.rotateLeft else t) = n at hleft ⊢
  rw [← hleft]
  dsimp only
  have hright : (if n.left.isRed && n.left.left.isRed then n.rotateRight else n).entries =
      n.entries := by
    split
    · next h =>
      simp only [Bool.and_eq_true] at h
      exact entries_rotateRight (not_isEmpty_of_isRed h.1)
    · rfl
  generalize (if n.left.isRed && n.left.left.isRed then n.rotateRight else n) = m at hright ⊢
  rw [← hright]
  split
  · exact entries_colorFlip m
  · rfl

/-- The entries of a node in order are split at its own. -/
theorem ascending_node {color : FLLRBColor} :
    SortedList.Ascending cmp (entries (.node color left key value right)) ↔
      SortedList.Ascending cmp left.entries ∧ SortedList.Ascending cmp right.entries ∧
      (∀ earlier ∈ left.entries, cmp earlier.1 key = .lt) ∧
      (∀ later ∈ right.entries, cmp key later.1 = .lt) ∧
      ∀ earlier ∈ left.entries, ∀ later ∈ right.entries, cmp earlier.1 later.1 = .lt :=
  SortedList.ascending_append

/-- An insertion is one into the sorted list that keeps the key it finds. -/
theorem entries_insertKey [Std.TransCmp cmp] (h : SortedList.Ascending cmp t.entries) :
    (insertKey cmp aKey aValue t).entries =
      SortedList.insert cmp (fun old _ => old) aKey aValue t.entries := by
  induction t with
  | empty => rfl
  | node color left key value right ihleft ihright =>
      obtain ⟨hleft, hright, _⟩ := ascending_node.mp h
      rw [insertKey, entries, SortedList.insert_pivot h]
      cases hcmp : cmp aKey key with
      | lt => simp [entries, ihleft hleft]
      | eq => simp [entries]
      | gt => simp [entries, ihright hright]

end Entries

end FLLRBNode

end FirebaseDatabase
