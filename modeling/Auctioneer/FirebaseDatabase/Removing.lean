import Auctioneer.FirebaseDatabase.Balance

/-!
Removal from a balanced tree. A node is ready for a removal when it is red or
has a red left child; on the way down, one that is not is made so.
-/

namespace FirebaseDatabase

namespace FLLRBNode

variable {κ ν : Type*} {cmp : κ → κ → Ordering} {t left right : FLLRBNode κ ν}
  {color : FLLRBColor} {key aKey : κ} {value : ν} {height : Nat}

/-- A balanced node that is red, or black with a red left child. -/
inductive Ready : FLLRBNode κ ν → FLLRBColor → Nat → Prop where
  | red {t : FLLRBNode κ ν} {height : Nat} : Balanced t .red height → Ready t .red height
  | black {left right : FLLRBNode κ ν} {key : κ} {value : ν} {height : Nat} :
      Balanced left .red height → Balanced right .black height →
      Ready (.node .black left key value right) .black (height + 1)

/-- What a removal leaves: a balanced node of the same height, not red when it
was black. -/
def Removed (color : FLLRBColor) (t : FLLRBNode κ ν) (height : Nat) : Prop :=
  ∃ c, Balanced t c height ∧ (color = .black → c = .black)

theorem Balanced.eq_empty (h : Balanced t .black 0) : t = .empty := by
  cases h with
  | empty => rfl

/-- The children of a balanced node: none, or a red one that leans left, or two
black ones. -/
inductive Children : FLLRBColor → FLLRBNode κ ν → FLLRBNode κ ν → Nat → Prop where
  | none {color : FLLRBColor} : Children color .empty .empty color.weight
  | leaning {left right : FLLRBNode κ ν} {height : Nat} :
      Balanced left .red height → Balanced right .black height →
      Children .black left right (height + 1)
  | full {color : FLLRBColor} {left right : FLLRBNode κ ν} {height : Nat} :
      Balanced left .black (height + 1) → Balanced right .black (height + 1) →
      Children color left right (height + 1 + color.weight)

theorem Balanced.children {c : FLLRBColor} (h : Balanced (.node c left key value right) color height) :
    color = c ∧ Children c left right height := by
  cases h with
  | red hleft hright =>
      refine ⟨rfl, ?_⟩
      cases hleft with
      | empty =>
          rw [hright.eq_empty]
          exact .none
      | black hll hlr => exact .full (.black hll hlr) hright
  | black hleft hright =>
      refine ⟨rfl, ?_⟩
      cases hleft with
      | empty =>
          rw [hright.eq_empty]
          exact .none
      | red hll hlr => exact .leaning (.red hll hlr) hright
      | black hll hlr => exact .full (.black hll hlr) hright

/-- A node over black children. -/
theorem fixUp_node (hleft : Balanced left .black height) (hright : Balanced right .black height) :
    Balanced (fixUp (.node color left key value right)) color (height + color.weight) := by
  cases color with
  | red => exact fixUp_red hleft hright
  | black => simpa using fixUp_black hleft hright

/-- A node that has given its color to its children takes it back. -/
theorem fixUp_flipped (hleft : Balanced left .red height) (hright : Balanced right .red height) :
    Balanced (fixUp (.node color.flip left key value right)) color
      (height + 1 + color.weight) := by
  cases color with
  | red => simpa using fixUp_black hleft hright
  | black => exact fixUp_red_red hleft hright

theorem Ready.balanced (h : Ready t color height) : Balanced t color height := by
  cases h with
  | red h => exact h
  | black hleft hright => exact .black hleft hright

theorem Balanced.ready (h : Balanced t .black height) (hleft : t.left.isRed = true) :
    Ready t .black height := by
  cases h with
  | empty => cases hleft
  | @black left _ c _ _ _ hl hr =>
      cases c with
      | red => exact .black hl hr
      | black => simp [hl.isRed] at hleft

/-- What `prepareLeft` makes of a node whose left child is black and not empty:
the left child is ready as it was, or has become so by a rotation from the right
child, or has taken the node's color together with the right one. -/
inductive PreparedLeft (color : FLLRBColor) (key : κ) (value : ν) (height : Nat) :
    FLLRBNode κ ν → Prop where
  | ready {left right : FLLRBNode κ ν} {key' : κ} {value' : ν} :
      Ready left .black (height + 1) → Balanced right .black (height + 1) →
      key' = key ∨ (key, value) ∈ left.entries →
      PreparedLeft color key value height (.node color left key' value' right)
  | flipped {left right : FLLRBNode κ ν} :
      Balanced left .red height → Balanced right .red height →
      PreparedLeft color key value height (.node color.flip left key value right)

theorem prepareLeft_cases (hleft : Balanced left .black (height + 1))
    (hright : Balanced right .black (height + 1)) :
    PreparedLeft color key value height (prepareLeft (.node color left key value right)) := by
  by_cases hready : left.left.isRed = true
  · have hself : prepareLeft (.node color left key value right) =
        .node color left key value right := by
      simp [prepareLeft, hready]
    rw [hself]
    exact .ready (hleft.ready hready) hright (.inl rfl)
  have hblack : left.left.isRed = false := by simpa using hready
  have hempty : left.isEmpty = false := by cases hleft; rfl
  have hmove : prepareLeft (.node color left key value right) =
      moveRedLeft (.node color left key value right) := by
    simp [prepareLeft, hempty, hleft.not_isRed, hblack]
  rw [hmove]
  cases hright with
  | @black middle outer c key' value' _ hmiddle houter =>
      cases c with
      | black =>
          have hflip : moveRedLeft (.node color left key value
              (.node .black middle key' value' outer)) =
              .node color.flip left.flipped key value (.node .red middle key' value' outer) := by
            simp [moveRedLeft, colorFlip, hmiddle.not_isRed]
          rw [hflip]
          exact .flipped (hleft.flipped_black hblack) (.red hmiddle houter)
      | red =>
          cases hmiddle with
          | @red inner inner' key'' value'' _ hinner hinner' =>
              have hturn : moveRedLeft (.node color left key value
                  (.node .black (.node .red inner key'' value'' inner') key' value' outer)) =
                  .node color (.node .black left.flipped key value inner) key'' value''
                    (.node .black inner' key' value' outer) := by
                simp [moveRedLeft, colorFlip, withRight, rotateRight, rotateLeft]
              rw [hturn]
              exact .ready (.black (hleft.flipped_black hblack) hinner) (.black hinner' houter)
                (.inr (by simp [entries]))

@[simp] theorem entries_prepareLeft (t : FLLRBNode κ ν) : t.prepareLeft.entries = t.entries := by
  unfold prepareLeft
  split
  swap
  · rfl
  rw [← entries_colorFlip t]
  unfold moveRedLeft
  generalize t.colorFlip = n
  dsimp only
  split
  · rcases n with _ | ⟨_, _, _, _, _ | ⟨_, _ | _, _, _, _⟩⟩ <;>
      simp_all [withRight, rotateRight, rotateLeft, colorFlip, entries]
  · rfl

@[simp] theorem entries_prepareRight (t : FLLRBNode κ ν) :
    t.prepareRight.entries = t.entries := by
  have hrotate : (if t.left.isRed then t.rotateRight else t).entries = t.entries := by
    split
    · next h => exact entries_rotateRight (not_isEmpty_of_isRed h)
    · rfl
  unfold prepareRight
  generalize (if t.left.isRed then t.rotateRight else t) = n at hrotate ⊢
  rw [← hrotate, ← entries_colorFlip n]
  dsimp only
  split
  swap
  · exact (entries_colorFlip n).symm
  unfold moveRedRight
  generalize n.colorFlip = m
  dsimp only
  split
  · next h =>
    have hthere : m.left.isEmpty = false := by
      rcases m with _ | ⟨_, _ | _, _, _, _⟩ <;> simp_all [isEmpty]
    rw [entries_colorFlip, entries_rotateRight hthere]
  · rfl

theorem Ready.entries_ne_nil (h : Ready t color height) : t.entries ≠ [] := by
  cases h with
  | red h => cases h; simp [entries]
  | black => simp [entries]

/-- A black node with a red left child is not prepared. -/
theorem prepareLeft_of_red (h : left.isRed = true) :
    prepareLeft (.node color left key value right) = .node color left key value right := by
  simp [prepareLeft, h]

/-- The smallest entry is in the left part, when there is one. -/
theorem tail_entries (h : left.entries ≠ []) :
    (entries (.node color left key value right)).tail =
      left.entries.tail ++ (key, value) :: right.entries :=
  List.tail_append_of_ne_nil h

theorem isEmpty_iff : t.isEmpty = true ↔ t = .empty := by
  cases t <;> simp [isEmpty]

/-- The smallest entry goes, and the node stays balanced. -/
theorem Ready.removeMin (h : Ready t color height) :
    Removed color t.removeMin height ∧ t.removeMin.entries = t.entries.tail := by
  induction t using (measure FLLRBNode.count).wf.induction generalizing color height with
  | _ t ih =>
  cases t with
  | empty =>
      cases h with
      | red h => cases h
  | node c left key value right =>
      have hsmaller := @ih _ (count_prepareLeft c left key value right)
      have hsame := entries_prepareLeft (.node c left key value right)
      rw [FLLRBNode.removeMin]
      dsimp only
      cases h with
      | black hleft hright =>
          rw [if_neg (by simp [not_isEmpty_of_isRed, hleft.isRed])]
          rw [prepareLeft_of_red (by simp [hleft.isRed])] at hsmaller ⊢
          obtain ⟨⟨c, hl, _⟩, hentries⟩ := hsmaller (.red hleft)
          refine ⟨⟨_, fixUp_black hl hright, fun _ => by simp⟩, ?_⟩
          rw [entries_fixUp, tail_entries (Ready.red hleft).entries_ne_nil]
          exact congrArg (· ++ _) hentries
      | red h =>
          cases h with
          | red hleft hright =>
          cases hleft with
          | empty =>
              rw [if_pos (show isEmpty .empty = true from rfl), hright.eq_empty]
              exact ⟨⟨_, .empty, fun h => by cases h⟩, rfl⟩
          | @black ll lr c' lk lv height hll hlr =>
              rw [if_neg (by simp [isEmpty])]
              have hprepared : PreparedLeft .red key value height
                  (prepareLeft (.node .red (.node .black ll lk lv lr) key value right)) :=
                prepareLeft_cases (.black hll hlr) hright
              generalize prepareLeft _ = n at hprepared hsmaller hsame ⊢
              rw [← hsame]
              cases hprepared with
              | ready hl hr _ =>
                  obtain ⟨⟨c, hl', hblack⟩, hentries⟩ := hsmaller hl
                  obtain rfl := hblack rfl
                  refine ⟨⟨_, fixUp_red hl' hr, fun h => by cases h⟩, ?_⟩
                  rw [tail_entries hl.entries_ne_nil, entries_fixUp]
                  exact congrArg (· ++ _) hentries
              | flipped hl hr =>
                  obtain ⟨⟨c, hl', _⟩, hentries⟩ := hsmaller (.red hl)
                  refine ⟨⟨_, fixUp_black hl' hr, fun h => by cases h⟩, ?_⟩
                  rw [tail_entries (Ready.red hl).entries_ne_nil, entries_fixUp]
                  exact congrArg (· ++ _) hentries

/-- What `prepareRight` makes of a node with two black children that are not
empty: the right child is ready as it was, or has become so by a rotation from
the left child, or has taken the node's color together with the left one. -/
inductive PreparedRight (color : FLLRBColor) (key : κ) (value : ν) (height : Nat) :
    FLLRBNode κ ν → Prop where
  | ready {left right : FLLRBNode κ ν} :
      Balanced left .black (height + 1) → Ready right .black (height + 1) →
      PreparedRight color key value height (.node color left key value right)
  | turned {outer inner right : FLLRBNode κ ν} {key' : κ} {value' : ν} :
      Balanced outer .black (height + 1) → Balanced inner .black height →
      Balanced right .red height →
      PreparedRight color key value height
        (.node color outer key' value' (.node .black inner key value right))
  | flipped {left right : FLLRBNode κ ν} :
      Balanced left .red height → Balanced right .red height →
      PreparedRight color key value height (.node color.flip left key value right)

theorem prepareRight_cases (hleft : Balanced left .black (height + 1))
    (hright : Balanced right .black (height + 1)) :
    PreparedRight color key value height (prepareRight (.node color left key value right)) := by
  by_cases hready : right.left.isRed = true
  · have hself : prepareRight (.node color left key value right) =
        .node color left key value right := by
      simp [prepareRight, hleft.not_isRed, hready]
    rw [hself]
    exact .ready hleft (hright.ready hready)
  have hblack : right.left.isRed = false := by simpa using hready
  have hempty : right.isEmpty = false := by cases hright; rfl
  have hmove : prepareRight (.node color left key value right) =
      moveRedRight (.node color left key value right) := by
    simp [prepareRight, hleft.not_isRed, hempty, hright.not_isRed, hblack]
  rw [hmove]
  cases hleft with
  | @black outer middle c key' value' _ houter hmiddle =>
      cases c with
      | black =>
          have hflip : moveRedRight (.node color (.node .black outer key' value' middle)
              key value right) =
              .node color.flip (.node .red outer key' value' middle) key value right.flipped := by
            simp [moveRedRight, colorFlip, houter.not_isRed]
          rw [hflip]
          exact .flipped (.red houter hmiddle) (hright.flipped_black hblack)
      | red =>
          have hturn : moveRedRight (.node color (.node .black outer key' value' middle)
              key value right) =
              .node color outer.flipped key' value'
                (.node .black middle key value right.flipped) := by
            simp [moveRedRight, colorFlip, houter.isRed, rotateRight]
          rw [hturn]
          exact .turned houter.flipped_red hmiddle (hright.flipped_black hblack)

/-- A red left child goes up and to the right. -/
theorem prepareRight_of_red {outer middle : FLLRBNode κ ν} {key' : κ} {value' : ν} :
    prepareRight (.node color (.node .red outer key' value' middle) key value right) =
      .node color outer key' value' (.node .red middle key value right) := by
  simp [prepareRight, rotateRight]

/-- Nothing is prepared on the way to a red or an empty right child. -/
theorem prepareRight_eq_self (hleft : left.isRed = false)
    (hright : right.isEmpty = true ∨ right.isRed = true) :
    prepareRight (.node color left key value right) = .node color left key value right := by
  rcases hright with hempty | hred
  · simp [prepareRight, hleft, hempty]
  · simp [prepareRight, hleft, hred]

section Step

theorem min_eq (h : t.entries ≠ []) :
    ∃ c l k v r, t.min = .node c l k v r ∧ t.entries = (k, v) :: t.entries.tail := by
  induction t with
  | empty => exact absurd rfl h
  | node color left key value right ihleft _ =>
      cases left with
      | empty => exact ⟨color, .empty, key, value, right, rfl, rfl⟩
      | node c l k v r =>
          obtain ⟨c', l', k', v', r', hmin, hentries⟩ := ihleft (by simp [entries])
          refine ⟨c', l', k', v', r', hmin, ?_⟩
          rw [entries, hentries]
          rfl

/-- One step to the left. -/
theorem remove_left {n : FLLRBNode κ ν} (hcmp : cmp aKey key = .lt)
    (hprepared : prepareLeft (.node color left key value right) = n) :
    remove cmp aKey (.node color left key value right) =
      (n.withLeft (remove cmp aKey n.left)).fixUp := by
  rw [remove, if_pos hcmp, hprepared]

/-- One step to the right. -/
theorem remove_right {c : FLLRBColor} {l r : FLLRBNode κ ν} {k : κ} {v : ν}
    (hcmp : cmp aKey key ≠ .lt)
    (hprepared : prepareRight (.node color left key value right) = .node c l k v r)
    (hkey : cmp aKey k ≠ .eq) :
    remove cmp aKey (.node color left key value right) =
      fixUp (.node c l k v (remove cmp aKey r)) := by
  rw [remove, if_neg hcmp]
  split
  · next heq => rw [hprepared] at heq; cases heq
  · next heq =>
    rw [hprepared] at heq
    cases heq
    rw [if_neg hkey]

/-- The step at the entry that is removed. -/
theorem remove_here {c c' : FLLRBColor} {l r l' r' : FLLRBNode κ ν} {k k' : κ} {v v' : ν}
    (hcmp : cmp aKey key ≠ .lt)
    (hprepared : prepareRight (.node color left key value right) = .node c l k v r)
    (hkey : cmp aKey k = .eq) (hmin : r.min = .node c' l' k' v' r') :
    remove cmp aKey (.node color left key value right) =
      fixUp (.node c l k' v' (remove cmp aKey r.removeMin)) := by
  rw [remove, if_neg hcmp]
  split
  · next heq => rw [hprepared] at heq; cases heq
  · next heq =>
    rw [hprepared] at heq
    cases heq
    rw [if_pos hkey, hmin]

theorem prepareLeft_of_empty (h : left = .empty) :
    prepareLeft (.node color left key value right) = .node color left key value right := by
  simp [prepareLeft, h, isEmpty]

@[simp] theorem remove_empty : remove cmp aKey (.empty : FLLRBNode κ ν) = .empty := by
  rw [remove]

/-- A key below all is not there, and looking for it keeps color and height. -/
theorem Balanced.remove_missing (h : Balanced t color height)
    (hkey : ∀ entry ∈ t.entries, cmp aKey entry.1 = .lt) :
    Balanced (remove cmp aKey t) color height ∧ (remove cmp aKey t).entries = t.entries := by
  induction t using (measure FLLRBNode.count).wf.induction generalizing color height with
  | _ t ih =>
  cases t with
  | empty => exact ⟨by rwa [remove_empty], by rw [remove_empty]⟩
  | node c left key value right =>
      have hcmp : cmp aKey key = .lt := hkey (key, value) (by simp [entries])
      have hsmaller := @ih _ (count_prepareLeft c left key value right)
      have hsame := entries_prepareLeft (.node c left key value right)
      have hstep := remove_left hcmp (Eq.refl (prepareLeft (.node c left key value right)))
      rw [hstep, entries_fixUp]
      have hbelow : ∀ entry ∈ (prepareLeft (.node c left key value right)).left.entries,
          cmp aKey entry.1 = .lt := by
        intro entry hentry
        refine hkey entry ?_
        rw [← hsame]
        generalize prepareLeft _ = n at hentry ⊢
        cases n with
        | empty => exact hentry
        | node => exact List.mem_append_left _ hentry
      obtain ⟨rfl, hchildren⟩ := h.children
      cases hchildren with
      | none =>
          rw [prepareLeft_of_empty rfl]
          exact ⟨by simpa using fixUp_node .empty .empty, by simp⟩
      | leaning hleft hright =>
          rw [prepareLeft_of_red (by simp [hleft.isRed])] at hsmaller hbelow ⊢
          obtain ⟨hl, hentries⟩ := hsmaller hleft hbelow
          exact ⟨by simpa using fixUp_black hl hright, congrArg (· ++ _) hentries⟩
      | @full _ _ _ height hleft hright =>
          have hprepared : PreparedLeft color key value height
              (prepareLeft (.node color left key value right)) :=
            prepareLeft_cases hleft hright
          rw [← hsame]
          generalize prepareLeft _ = n at hprepared hsmaller hbelow ⊢
          cases hprepared with
          | ready hl hr _ =>
              obtain ⟨hl', hentries⟩ := hsmaller hl.balanced hbelow
              exact ⟨fixUp_node hl' hr, congrArg (· ++ _) hentries⟩
          | flipped hl hr =>
              obtain ⟨hl', hentries⟩ := hsmaller hl hbelow
              exact ⟨fixUp_flipped hl' hr, congrArg (· ++ _) hentries⟩

end Step

/-- What is to be shown of a removal from a node that is ready for it. -/
def Erases (cmp : κ → κ → Ordering) (aKey : κ) (t : FLLRBNode κ ν) (color : FLLRBColor)
    (height : Nat) : Prop :=
  Removed color (remove cmp aKey t) height ∧
    (remove cmp aKey t).entries = SortedList.erase cmp aKey t.entries

/-- What a removal leaves of a node over two black children. A black one may have
lost its color, so that the fault of a leaning node is left to the root. -/
def Loosened (color : FLLRBColor) (t : FLLRBNode κ ν) (height : Nat) : Prop :=
  (∃ c, Balanced t c (height + 1 + color.weight)) ∨ color = .black ∧ Leaning t height

/-- A node that has given its color to its children, one of which has kept it. -/
theorem fixUp_loosened {c c' : FLLRBColor} (hleft : Balanced left c height)
    (hright : Balanced right c' height) (hone : c = .red ∨ c' = .red) :
    Loosened color (fixUp (.node color.flip left key value right)) height := by
  cases color with
  | red => exact .inl ⟨_, fixUp_black hleft hright⟩
  | black =>
      cases c with
      | red =>
          cases c' with
          | red => exact .inl ⟨_, fixUp_red_red hleft hright⟩
          | black => exact .inr ⟨rfl, fixUp_leaning hleft hright (by simp)⟩
      | black =>
          obtain rfl : c' = .red := by simpa using hone
          exact .inr ⟨rfl, fixUp_leaning hleft hright (by simp)⟩

variable [Std.TransCmp cmp]

/-- A removal that goes right goes on in the right child, which may have lost its
smallest entry to the node. -/
theorem remove_prepared {c cr : FLLRBColor} {l r : FLLRBNode κ ν} {k : κ} {v : ν} {depth : Nat}
    (hcmp : cmp aKey key ≠ .lt)
    (hprepared : prepareRight (.node color left key value right) = .node c l k v r)
    (hsorted : SortedList.Ascending cmp (entries (.node c l k v r))) (hkey : cmp aKey k ≠ .lt)
    (hready : Ready r cr depth) (hremove : Erases cmp aKey r cr depth) :
    ∃ k' v' r', remove cmp aKey (.node color left key value right) = fixUp (.node c l k' v' r') ∧
      Removed cr r' depth ∧
      entries (.node c l k' v' r') = SortedList.erase cmp aKey (entries (.node c l k v r)) := by
  rw [entries, SortedList.erase_pivot hsorted]
  cases heq : cmp aKey k with
  | lt => exact absurd heq hkey
  | gt =>
      refine ⟨k, v, _, remove_right hcmp hprepared (by simp [heq]), hremove.1, ?_⟩
      rw [entries, hremove.2]
  | eq =>
      obtain ⟨c', l', k', v', r', hmin, hentries⟩ := min_eq hready.entries_ne_nil
      obtain ⟨⟨cm, hbalanced, hblack⟩, htail⟩ := hready.removeMin
      have hbelow : ∀ entry ∈ r.removeMin.entries, cmp aKey entry.1 = .lt := by
        intro entry hentry
        rw [htail] at hentry
        have hlater := (ascending_node.mp hsorted).2.2.2.1 entry (List.mem_of_mem_tail hentry)
        exact Std.TransCmp.lt_of_eq_of_lt heq hlater
      obtain ⟨hmissing, hkept⟩ := hbalanced.remove_missing hbelow
      refine ⟨k', v', _, remove_here hcmp hprepared heq hmin, ⟨cm, hmissing, hblack⟩, ?_⟩
      rw [entries, hkept, htail, ← hentries]

/-- A black node whose red child leans right, on the way to the right. -/
theorem erases_of_right_red (hcmp : cmp aKey key ≠ .lt) (hleft : Balanced left .black height)
    (hright : Balanced right .red height)
    (hsorted : SortedList.Ascending cmp (entries (.node .black left key value right)))
    (hremove : Erases cmp aKey right .red height) :
    Erases cmp aKey (.node .black left key value right) .black (height + 1) := by
  have hself : prepareRight (.node .black left key value right) =
      .node .black left key value right :=
    prepareRight_eq_self hleft.not_isRed (.inr (by simp [hright.isRed]))
  obtain ⟨k, v, r, hstep, ⟨c, hr, _⟩, hentries⟩ :=
    remove_prepared hcmp hself hsorted hcmp (.red hright) hremove
  rw [Erases, hstep, entries_fixUp]
  exact ⟨⟨_, fixUp_black hleft hr, fun _ => by simp⟩, hentries⟩

/-- A removal that goes left from two black children. -/
theorem remove_full_left (hcmp : cmp aKey key = .lt) (hleft : Balanced left .black (height + 1))
    (hright : Balanced right .black (height + 1))
    (hsorted : SortedList.Ascending cmp (entries (.node color left key value right)))
    (ih : ∀ n : FLLRBNode κ ν, n.count < (node color left key value right).count →
      ∀ {c depth}, Ready n c depth → SortedList.Ascending cmp n.entries →
        Erases cmp aKey n c depth) :
    Loosened color (remove cmp aKey (.node color left key value right)) height ∧
      (remove cmp aKey (.node color left key value right)).entries =
        SortedList.erase cmp aKey (entries (.node color left key value right)) := by
  have hsmaller := @ih _ (count_prepareLeft color left key value right)
  have hsame := entries_prepareLeft (.node color left key value right)
  have hprepared : PreparedLeft color key value height
      (prepareLeft (.node color left key value right)) :=
    prepareLeft_cases hleft hright
  rw [remove_left hcmp rfl, entries_fixUp]
  rw [← hsame] at hsorted ⊢
  generalize prepareLeft _ = n at hprepared hsmaller hsorted ⊢
  cases hprepared with
  | @ready l r k v hl hr hk =>
      obtain ⟨hlsorted, _, hbelow, _⟩ := ascending_node.mp hsorted
      have hkey : cmp aKey k = .lt := by
        rcases hk with rfl | hmem
        · exact hcmp
        · exact Std.TransCmp.lt_trans hcmp (hbelow _ hmem)
      obtain ⟨⟨c, hl', hblack⟩, hentries⟩ := hsmaller hl hlsorted
      obtain rfl := hblack rfl
      refine ⟨.inl ⟨_, fixUp_node hl' hr⟩, ?_⟩
      change _ ++ (k, v) :: r.entries = SortedList.erase cmp aKey (l.entries ++ (k, v) :: r.entries)
      rw [SortedList.erase_pivot hsorted, hkey]
      exact congrArg (· ++ _) hentries
  | @flipped l r hl hr =>
      obtain ⟨hlsorted, _⟩ := ascending_node.mp hsorted
      obtain ⟨⟨c, hl', _⟩, hentries⟩ := hsmaller (.red hl) hlsorted
      refine ⟨fixUp_loosened hl' hr (.inr rfl), ?_⟩
      change _ ++ (key, value) :: r.entries =
        SortedList.erase cmp aKey (l.entries ++ (key, value) :: r.entries)
      rw [SortedList.erase_pivot hsorted, hcmp]
      exact congrArg (· ++ _) hentries

/-- And one that goes right. -/
theorem remove_full_right (hcmp : cmp aKey key ≠ .lt)
    (hleft : Balanced left .black (height + 1)) (hright : Balanced right .black (height + 1))
    (hsorted : SortedList.Ascending cmp (entries (.node color left key value right)))
    (ih : ∀ n : FLLRBNode κ ν, n.count < (node color left key value right).count →
      ∀ {c depth}, Ready n c depth → SortedList.Ascending cmp n.entries →
        Erases cmp aKey n c depth) :
    Loosened color (remove cmp aKey (.node color left key value right)) height ∧
      (remove cmp aKey (.node color left key value right)).entries =
        SortedList.erase cmp aKey (entries (.node color left key value right)) := by
  have hsmaller := count_prepareRight_le (.node color left key value right)
  have hsame := entries_prepareRight (.node color left key value right)
  have hprepared : PreparedRight color key value height
      (prepareRight (.node color left key value right)) :=
    prepareRight_cases hleft hright
  generalize hn : prepareRight (.node color left key value right) = n
    at hprepared hsmaller hsame
  rw [← hsame] at hsorted ⊢
  cases hprepared with
  | @ready l r hl hr =>
      obtain ⟨_, hrsorted, _⟩ := ascending_node.mp hsorted
      have hremove := ih r (by simp only [count] at hsmaller ⊢; omega) hr hrsorted
      obtain ⟨k, v, r', hstep, ⟨c, hr', hblack⟩, hentries⟩ :=
        remove_prepared hcmp hn hsorted hcmp hr hremove
      obtain rfl := hblack rfl
      rw [hstep, entries_fixUp]
      exact ⟨.inl ⟨_, fixUp_node hl hr'⟩, hentries⟩
  | @turned outer inner r k v houter hinner hr =>
      obtain ⟨_, hrsorted, _, habove, _⟩ := ascending_node.mp hsorted
      have hkey : cmp aKey k = .gt :=
        SortedList.gt_of_lt_of_not_lt (habove (key, value) (by simp [entries])) hcmp
      have hremove := ih r (by simp only [count] at hsmaller ⊢; omega) (.red hr)
        (ascending_node.mp hrsorted).2.1
      obtain ⟨⟨c, hr', hblack⟩, hentries⟩ :=
        erases_of_right_red hcmp hinner hr hrsorted hremove
      obtain rfl := hblack rfl
      rw [remove_right hcmp hn (by simp [hkey]), entries_fixUp]
      refine ⟨.inl ⟨_, fixUp_node houter hr'⟩, ?_⟩
      rw [entries, hentries, entries.eq_2 _ outer, SortedList.erase_pivot hsorted, hkey]
  | @flipped l r hl hr =>
      obtain ⟨_, hrsorted, _⟩ := ascending_node.mp hsorted
      have hremove := ih r (by simp only [count] at hsmaller ⊢; omega) (.red hr) hrsorted
      obtain ⟨k, v, r', hstep, ⟨c, hr', _⟩, hentries⟩ :=
        remove_prepared hcmp hn hsorted hcmp (.red hr) hremove
      rw [hstep, entries_fixUp]
      exact ⟨fixUp_loosened hl hr' (.inl rfl), hentries⟩

omit [Std.TransCmp cmp] in
/-- A removal from a node without children. -/
theorem remove_leaf :
    remove cmp aKey (.node color .empty key value .empty) =
      if cmp aKey key = .eq then .empty else .node color .empty key value .empty := by
  by_cases hcmp : cmp aKey key = .lt
  · rw [remove_left hcmp (prepareLeft_of_empty rfl), left_node, remove_empty, withLeft_node,
      if_neg (by simp [hcmp])]
    exact fixUp_eq_self rfl (by simp)
  have hself : prepareRight (.node color .empty key value .empty : FLLRBNode κ ν) =
      .node color .empty key value .empty :=
    prepareRight_eq_self rfl (.inl rfl)
  by_cases heq : cmp aKey key = .eq
  · rw [remove, if_neg hcmp, if_pos heq]
    split
    · rfl
    · next hnode =>
      rw [hself] at hnode
      cases hnode
      simp [heq, min]
  · rw [remove_right hcmp hself heq, remove_empty, if_neg heq]
    exact fixUp_eq_self rfl (by simp)

omit [Std.TransCmp cmp] in
theorem entries_remove_leaf :
    (remove cmp aKey (.node color .empty key value .empty)).entries =
      SortedList.erase cmp aKey (entries (.node color .empty key value .empty)) := by
  rw [remove_leaf]
  cases hcmp : cmp aKey key <;> simp [entries, SortedList.erase, hcmp]

/-- A removal from a node that is ready for it. -/
theorem Ready.remove (h : Ready t color height) (hsorted : SortedList.Ascending cmp t.entries) :
    Erases cmp aKey t color height := by
  induction t using (measure FLLRBNode.count).wf.induction generalizing color height with
  | _ t ih =>
  cases h with
  | @black left right key value height hleft hright =>
      obtain ⟨hlsorted, hrsorted, _⟩ := ascending_node.mp hsorted
      by_cases hcmp : cmp aKey key = .lt
      · have hremove := ih left (by simp [WellFoundedRelation.rel, InvImage, count]; omega)
          (.red hleft) hlsorted
        obtain ⟨⟨c, hl, _⟩, hentries⟩ := hremove
        rw [Erases, remove_left hcmp (prepareLeft_of_red (by simp [hleft.isRed])), entries_fixUp]
        refine ⟨⟨_, fixUp_black hl hright, fun _ => by simp⟩, ?_⟩
        change _ ++ (key, value) :: right.entries =
          SortedList.erase cmp aKey (left.entries ++ (key, value) :: right.entries)
        rw [SortedList.erase_pivot hsorted, hcmp]
        exact congrArg (· ++ _) hentries
      · cases hleft with
        | @red outer middle key' value' _ houter hmiddle =>
            have hturn : prepareRight (.node .black (.node .red outer key' value' middle)
                key value right) =
                .node .black outer key' value' (.node .red middle key value right) :=
              prepareRight_of_red
            have hsame := entries_prepareRight
              (.node .black (.node .red outer key' value' middle) key value right)
            rw [hturn] at hsame
            rw [← hsame] at hsorted
            obtain ⟨_, hrsorted, _, habove, _⟩ := ascending_node.mp hsorted
            have hkey : cmp aKey key' = .gt :=
              SortedList.gt_of_lt_of_not_lt (habove (key, value) (by simp [entries])) hcmp
            obtain ⟨⟨c, hr, _⟩, hentries⟩ := ih (.node .red middle key value right)
              (by simp [WellFoundedRelation.rel, InvImage, count])
              (.red (.red hmiddle hright)) hrsorted
            rw [Erases, remove_right hcmp hturn (by simp [hkey]), entries_fixUp, ← hsame]
            refine ⟨⟨_, fixUp_black houter hr, fun _ => by simp⟩, ?_⟩
            rw [entries, hentries, entries.eq_2 _ outer, SortedList.erase_pivot hsorted, hkey]
  | red h =>
      cases t with
      | empty => cases h
      | node c left key value right =>
      obtain ⟨rfl, hchildren⟩ := h.children
      cases hchildren with
      | none =>
          refine ⟨?_, entries_remove_leaf⟩
          rw [remove_leaf]
          split
          · exact ⟨_, .empty, fun h => by cases h⟩
          · exact ⟨_, h, fun h => by cases h⟩
      | full hleft hright =>
          by_cases hcmp : cmp aKey key = .lt
          · obtain ⟨hloosened, hentries⟩ := remove_full_left hcmp hleft hright hsorted ih
            obtain ⟨c, hbalanced⟩ := hloosened.resolve_right (by simp)
            exact ⟨⟨c, hbalanced, fun h => by cases h⟩, hentries⟩
          · obtain ⟨hloosened, hentries⟩ := remove_full_right hcmp hleft hright hsorted ih
            obtain ⟨c, hbalanced⟩ := hloosened.resolve_right (by simp)
            exact ⟨⟨c, hbalanced, fun h => by cases h⟩, hentries⟩

/-- A removal from the root, which is black and need not be ready: once it is
made black again, it is balanced. -/
theorem Balanced.remove_root (h : Balanced t .black height)
    (hsorted : SortedList.Ascending cmp t.entries) :
    (∃ height', Balanced ((remove cmp aKey t).withColor .black) .black height') ∧
      ((remove cmp aKey t).withColor .black).entries = SortedList.erase cmp aKey t.entries := by
  rw [entries_withColor]
  cases t with
  | empty =>
      rw [remove_empty]
      exact ⟨h.blackened, rfl⟩
  | node c left key value right =>
  obtain ⟨rfl, hchildren⟩ := h.children
  cases hchildren with
  | none =>
      refine ⟨?_, entries_remove_leaf⟩
      rw [remove_leaf]
      split
      · exact Balanced.empty.blackened
      · exact h.blackened
  | leaning hleft hright =>
      obtain ⟨⟨c, hbalanced, _⟩, hentries⟩ := (Ready.black hleft hright).remove hsorted
      exact ⟨hbalanced.blackened, hentries⟩
  | full hleft hright =>
      have hloose : ∀ {t : FLLRBNode κ ν} {height}, Loosened .black t height →
          ∃ height', Balanced (t.withColor .black) .black height' := by
        rintro t height (⟨c, hbalanced⟩ | ⟨_, hleaning⟩)
        · exact hbalanced.blackened
        · cases hleaning with
          | mk hl hr => exact ⟨_, .black hl hr⟩
      by_cases hcmp : cmp aKey key = .lt
      · obtain ⟨hloosened, hentries⟩ := remove_full_left hcmp hleft hright hsorted
          fun n _ c depth hready hn => hready.remove hn
        exact ⟨hloose hloosened, hentries⟩
      · obtain ⟨hloosened, hentries⟩ := remove_full_right hcmp hleft hright hsorted
          fun n _ c depth hready hn => hready.remove hn
        exact ⟨hloose hloosened, hentries⟩

end FLLRBNode

end FirebaseDatabase
