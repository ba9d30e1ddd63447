import Mathlib.Data.List.Basic
import Mathlib.Tactic.Linarith

/-!
The nodes of the client's sorted dictionary: left-leaning red-black trees. A
missing child is the shared empty node, and `copyWith` on it changes nothing.
-/

namespace FirebaseDatabase

inductive FLLRBColor where
  | red | black
deriving DecidableEq, Repr

def FLLRBColor.flip : FLLRBColor → FLLRBColor
  | .red => .black
  | .black => .red

@[simp] theorem FLLRBColor.flip_red : FLLRBColor.red.flip = .black := rfl

@[simp] theorem FLLRBColor.flip_black : FLLRBColor.black.flip = .red := rfl

@[simp] theorem FLLRBColor.flip_flip (color : FLLRBColor) : color.flip.flip = color := by
  cases color <;> rfl

inductive FLLRBNode (κ ν : Type*) where
  | empty
  | node (color : FLLRBColor) (left : FLLRBNode κ ν) (key : κ) (value : ν)
      (right : FLLRBNode κ ν)
deriving Repr

namespace FLLRBNode

variable {κ ν : Type*} (cmp : κ → κ → Ordering)

def isEmpty : FLLRBNode κ ν → Bool
  | .empty => true
  | .node .. => false

def isRed : FLLRBNode κ ν → Bool
  | .node .red _ _ _ _ => true
  | _ => false

def left : FLLRBNode κ ν → FLLRBNode κ ν
  | .empty => .empty
  | .node _ left _ _ _ => left

def right : FLLRBNode κ ν → FLLRBNode κ ν
  | .empty => .empty
  | .node _ _ _ _ right => right

def count : FLLRBNode κ ν → Nat
  | .empty => 0
  | .node _ left _ _ right => left.count + 1 + right.count

/-- The entries in the order of `inorderTraversal:`. -/
def entries : FLLRBNode κ ν → List (κ × ν)
  | .empty => []
  | .node _ left key value right => left.entries ++ (key, value) :: right.entries

/-- The copies of a node with one part replaced. -/
def withColor (self : FLLRBNode κ ν) (color : FLLRBColor) : FLLRBNode κ ν :=
  match self with
  | .empty => .empty
  | .node _ left key value right => .node color left key value right

def withLeft (self left : FLLRBNode κ ν) : FLLRBNode κ ν :=
  match self with
  | .empty => .empty
  | .node color _ key value right => .node color left key value right

def withRight (self right : FLLRBNode κ ν) : FLLRBNode κ ν :=
  match self with
  | .empty => .empty
  | .node color left key value _ => .node color left key value right

def flipped : FLLRBNode κ ν → FLLRBNode κ ν
  | .empty => .empty
  | .node color left key value right => .node color.flip left key value right

/-- The copy that takes the right child's place is one of that child: of the
empty node, it is empty. -/
def rotateLeft : FLLRBNode κ ν → FLLRBNode κ ν
  | .empty => .empty
  | .node _ _ _ _ .empty => .empty
  | .node color left key value (.node _ middle key' value' right) =>
      .node color (.node .red left key value middle) key' value' right

def rotateRight : FLLRBNode κ ν → FLLRBNode κ ν
  | .empty => .empty
  | .node _ .empty _ _ _ => .empty
  | .node color (.node _ left key' value' middle) key value right =>
      .node color left key' value' (.node .red middle key value right)

def colorFlip : FLLRBNode κ ν → FLLRBNode κ ν
  | .empty => .empty
  | .node color left key value right =>
      .node color.flip left.flipped key value right.flipped

def fixUp (self : FLLRBNode κ ν) : FLLRBNode κ ν :=
  let n := if self.right.isRed && !self.left.isRed then self.rotateLeft else self
  let n := if n.left.isRed && n.left.left.isRed then n.rotateRight else n
  if n.left.isRed && n.right.isRed then n.colorFlip else n

def moveRedLeft (self : FLLRBNode κ ν) : FLLRBNode κ ν :=
  let n := self.colorFlip
  if n.right.left.isRed then ((n.withRight n.right.rotateRight).rotateLeft).colorFlip else n

def moveRedRight (self : FLLRBNode κ ν) : FLLRBNode κ ν :=
  let n := self.colorFlip
  if n.left.left.isRed then n.rotateRight.colorFlip else n

def insertKey (key : κ) (value : ν) : FLLRBNode κ ν → FLLRBNode κ ν
  | .empty => .node .red .empty key value .empty
  | .node color left key' value' right =>
      match cmp key key' with
      | .lt => fixUp (.node color (insertKey key value left) key' value' right)
      | .eq => fixUp (.node color left key' value right)
      | .gt => fixUp (.node color left key' value' (insertKey key value right))

def min : FLLRBNode κ ν → FLLRBNode κ ν
  | .empty => .empty
  | .node color left key value right =>
      if left.isEmpty then .node color left key value right else left.min

def minKey : FLLRBNode κ ν → Option κ
  | .empty => none
  | .node _ left key _ _ => if left.isEmpty then some key else left.minKey

def maxKey : FLLRBNode κ ν → Option κ
  | .empty => none
  | .node _ _ key _ right => if right.isEmpty then some key else right.maxKey

/-- What `removeMin` and `remove` do before they go left. -/
def prepareLeft (self : FLLRBNode κ ν) : FLLRBNode κ ν :=
  if !self.left.isEmpty && !self.left.isRed && !self.left.left.isRed then self.moveRedLeft
  else self

/-- What `remove` does before it goes right. -/
def prepareRight (self : FLLRBNode κ ν) : FLLRBNode κ ν :=
  let n := if self.left.isRed then self.rotateRight else self
  if !n.right.isEmpty && !n.right.isRed && !n.right.left.isRed then n.moveRedRight else n

@[simp] theorem count_flipped (t : FLLRBNode κ ν) : t.flipped.count = t.count := by
  cases t <;> rfl

@[simp] theorem flipped_empty : (empty : FLLRBNode κ ν).flipped = .empty := rfl

@[simp] theorem flipped_node (color : FLLRBColor) (left : FLLRBNode κ ν) (key : κ) (value : ν)
    (right : FLLRBNode κ ν) :
    (node color left key value right).flipped = .node color.flip left key value right := rfl

/-- Going left, the tree gets smaller. -/
theorem count_prepareLeft (color : FLLRBColor) (left : FLLRBNode κ ν) (key : κ) (value : ν)
    (right : FLLRBNode κ ν) :
    (prepareLeft (.node color left key value right)).left.count <
      (node color left key value right).count := by
  unfold prepareLeft
  split
  swap
  · simp only [FLLRBNode.left, count]
    omega
  rcases right with _ | ⟨c, _ | ⟨_ | _, rll, k', v', rlr⟩, k, v, rr⟩ <;>
    simp [moveRedLeft, colorFlip, withRight, rotateRight, rotateLeft, FLLRBNode.right,
      FLLRBNode.left, isRed, count] <;>
    omega

def removeMin : FLLRBNode κ ν → FLLRBNode κ ν
  | .empty => .empty
  | .node color left key value right =>
      if left.isEmpty then .empty
      else
        let n := prepareLeft (.node color left key value right)
        (n.withLeft (removeMin n.left)).fixUp
termination_by n => n.count
decreasing_by exact count_prepareLeft color left key value right

theorem count_rotateLeft_le (t : FLLRBNode κ ν) : t.rotateLeft.count ≤ t.count := by
  rcases t with _ | ⟨_, _, _, _, _ | _⟩ <;> simp [rotateLeft, count]
  omega

theorem count_rotateRight_le (t : FLLRBNode κ ν) : t.rotateRight.count ≤ t.count := by
  rcases t with _ | ⟨_, _ | _, _, _, _⟩ <;> simp [rotateRight, count]
  omega

@[simp] theorem count_colorFlip (t : FLLRBNode κ ν) : t.colorFlip.count = t.count := by
  cases t <;> simp [colorFlip, count]

theorem count_fixUp_le (t : FLLRBNode κ ν) : t.fixUp.count ≤ t.count := by
  have hleft := count_rotateLeft_le t
  have hright := count_rotateRight_le t
  have hboth := count_rotateRight_le t.rotateLeft
  unfold fixUp
  dsimp only
  split_ifs <;> simp <;> omega

theorem count_withLeft_le (t left : FLLRBNode κ ν) (h : left.count ≤ t.left.count) :
    (t.withLeft left).count ≤ t.count := by
  cases t with
  | empty => exact Nat.le_refl _
  | node =>
      simp only [FLLRBNode.left] at h
      simp only [withLeft, count]
      omega

theorem count_moveRedLeft_le (t : FLLRBNode κ ν) : t.moveRedLeft.count ≤ t.count := by
  unfold moveRedLeft
  dsimp only
  split
  · have hrotate := count_rotateLeft_le (t.colorFlip.withRight t.colorFlip.right.rotateRight)
    have hright := count_rotateRight_le t.colorFlip.right
    rw [count_colorFlip]
    refine hrotate.trans ?_
    rw [← count_colorFlip t]
    generalize t.colorFlip = n at hright ⊢
    cases n with
    | empty => exact le_refl _
    | node =>
        simp only [FLLRBNode.right] at hright
        simp only [withRight, FLLRBNode.right, count]
        omega
  · rw [count_colorFlip]

theorem count_moveRedRight_le (t : FLLRBNode κ ν) : t.moveRedRight.count ≤ t.count := by
  have hrotate := count_rotateRight_le t.colorFlip
  rw [count_colorFlip] at hrotate
  unfold moveRedRight
  dsimp only
  split <;> simp [hrotate]

theorem count_prepareLeft_le (t : FLLRBNode κ ν) : t.prepareLeft.count ≤ t.count := by
  unfold prepareLeft
  split
  · exact count_moveRedLeft_le t
  · exact le_refl _

theorem count_prepareRight_le (t : FLLRBNode κ ν) : t.prepareRight.count ≤ t.count := by
  have hrotate := count_rotateRight_le t
  have hmove := count_moveRedRight_le t
  have hboth := count_moveRedRight_le t.rotateRight
  unfold prepareRight
  dsimp only
  split_ifs <;> omega

theorem count_removeMin_le (t : FLLRBNode κ ν) : t.removeMin.count ≤ t.count := by
  induction t using removeMin.induct with
  | case1 => simp [removeMin]
  | case2 color left key value right hempty =>
      rw [removeMin, if_pos hempty]
      exact Nat.zero_le _
  | case3 color left key value right hempty n ih =>
      rw [removeMin, if_neg hempty]
      exact ((count_fixUp_le _).trans (count_withLeft_le _ _ ih)).trans (count_prepareLeft_le _)

/-- After the smallest entry of the right part has taken the place of the one
that is removed, the removal goes on in that part. -/
def remove (aKey : κ) : FLLRBNode κ ν → FLLRBNode κ ν
  | .empty => .empty
  | .node color left key value right =>
      if cmp aKey key = .lt then
        let n := prepareLeft (.node color left key value right)
        (n.withLeft (remove aKey n.left)).fixUp
      else
        match _h : prepareRight (.node color left key value right) with
        | .empty => .empty
        | .node color' left' key' value' right' =>
            if cmp aKey key' = .eq then
              match right'.min with
              | .empty => .empty
              | .node _ _ smallest smallestValue _ =>
                  fixUp (.node color' left' smallest smallestValue
                    (remove aKey right'.removeMin))
            else fixUp (.node color' left' key' value' (remove aKey right'))
termination_by n => n.count
decreasing_by
  · exact count_prepareLeft color left key value right
  · have hle := count_prepareRight_le (.node color left key value right)
    have hmin := count_removeMin_le right'
    rw [_h] at hle
    simp only [count] at hle ⊢
    omega
  · have hle := count_prepareRight_le (.node color left key value right)
    rw [_h] at hle
    simp only [count] at hle ⊢
    omega

/-- The number of black nodes on each way down, where they agree: otherwise, and
where a red node has a red child or is a right child, it throws. -/
def check : FLLRBNode κ ν → Option Nat
  | .empty => some 0
  | .node color left _ _ right =>
      if color = .red ∧ left.isRed then none
      else if right.isRed then none
      else do
        let blackDepth ← left.check
        let rightDepth ← right.check
        if blackDepth ≠ rightDepth then none
        else some (blackDepth + if color = .red then 0 else 1)

/-- `checkMaxDepth`, when `check` does not throw. -/
def checkMaxDepth (self : FLLRBNode κ ν) : Option Bool :=
  self.check.map fun blackDepth => 2 ^ blackDepth ≤ self.count + 1

end FLLRBNode

end FirebaseDatabase
