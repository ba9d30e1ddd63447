import Auctioneer.FirebaseDatabase.DictionaryRuns
import Mathlib.Data.List.TakeWhile

/-!
The enumerators of the keys, from a start key or from either end. Over a tree, a
stack of the nodes whose keys are next stands for where the enumerator is.
-/

namespace FirebaseDatabase

open SortedList (Ascending)
open FLLRBNode

variable {κ ν : Type*} (cmp : κ → κ → Ordering)

/-- The last of the stack comes first. -/
structure FTreeSortedDictionaryEnumerator (κ ν : Type*) where
  stack : List (FLLRBNode κ ν)
  isReverse : Bool

namespace FTreeSortedDictionaryEnumerator

/-- How the key of a node compares with the start key, the other way in reverse. -/
def orderTo (startKey : Option κ) (isReverse : Bool) (key : κ) : Ordering :=
  let order := match startKey with
    | some startKey => cmp key startKey
    | none => .gt
  if isReverse then order.swap else order

/-- The loop of `initWithImmutableSortedDictionary:startKey:isReverse:`. -/
def startStack (startKey : Option κ) (isReverse : Bool) :
    FLLRBNode κ ν → List (FLLRBNode κ ν) → List (FLLRBNode κ ν)
  | .empty, stack => stack
  | .node color left key value right, stack =>
      match orderTo cmp startKey isReverse key with
      | .lt =>
          if isReverse then startStack startKey isReverse left stack
          else startStack startKey isReverse right stack
      | .eq => .node color left key value right :: stack
      | .gt =>
          if isReverse then
            startStack startKey isReverse right (.node color left key value right :: stack)
          else startStack startKey isReverse left (.node color left key value right :: stack)

def new (root : FLLRBNode κ ν) (startKey : Option κ) (isReverse : Bool) :
    FTreeSortedDictionaryEnumerator κ ν where
  stack := startStack cmp startKey isReverse root []
  isReverse := isReverse

/-- The loops of `nextObject`. -/
def push (isReverse : Bool) : FLLRBNode κ ν → List (FLLRBNode κ ν) → List (FLLRBNode κ ν)
  | .empty, stack => stack
  | .node color left key value right, stack =>
      if isReverse then push isReverse right (.node color left key value right :: stack)
      else push isReverse left (.node color left key value right :: stack)

def nextObject (isReverse : Bool) :
    List (FLLRBNode κ ν) → Option (κ × List (FLLRBNode κ ν))
  | [] => none
  | .empty :: _ => none
  | .node _ left key _ right :: stack =>
      some (key, push isReverse (if isReverse then left else right) stack)

/-- The child that comes after a node. -/
def far (isReverse : Bool) (node : FLLRBNode κ ν) : FLLRBNode κ ν :=
  if isReverse then node.left else node.right

/-- The child that comes before a node. -/
def near (isReverse : Bool) (node : FLLRBNode κ ν) : FLLRBNode κ ν :=
  if isReverse then node.right else node.left

/-- The nodes that are still to come. -/
def pending (isReverse : Bool) (stack : List (FLLRBNode κ ν)) : Nat :=
  (stack.map fun node => (far isReverse node).count + 1).sum

theorem push_node (isReverse : Bool) (color : FLLRBColor) (left right : FLLRBNode κ ν) (key : κ)
    (value : ν) (stack : List (FLLRBNode κ ν)) :
    push isReverse (.node color left key value right) stack =
      push isReverse (near isReverse (.node color left key value right))
        (.node color left key value right :: stack) := by
  cases isReverse <;> rfl

theorem pending_push (isReverse : Bool) (node : FLLRBNode κ ν) (stack : List (FLLRBNode κ ν)) :
    pending isReverse (push isReverse node stack) = node.count + pending isReverse stack := by
  induction node generalizing stack with
  | empty => simp [push, count]
  | node color left key value right ihleft ihright =>
      rw [push_node]
      cases isReverse with
      | true =>
          change pending true (push true right _) = _
          rw [ihright]
          simp [pending, far, count, FLLRBNode.left]
          omega
      | false =>
          change pending false (push false left _) = _
          rw [ihleft]
          simp [pending, far, count, FLLRBNode.right]
          omega

theorem pending_nextObject {isReverse : Bool} {stack stack' : List (FLLRBNode κ ν)} {key : κ}
    (h : nextObject isReverse stack = some (key, stack')) :
    pending isReverse stack' < pending isReverse stack := by
  match stack, h with
  | .node color left key' value right :: rest, h =>
      obtain ⟨rfl, rfl⟩ := Prod.mk.inj (Option.some.inj h)
      rw [pending_push]
      cases isReverse <;> simp [pending, far, FLLRBNode.left, FLLRBNode.right]

/-- What `nextObject` returns until it returns none. -/
def allFrom (isReverse : Bool) (stack : List (FLLRBNode κ ν)) : List κ :=
  match _h : nextObject isReverse stack with
  | none => []
  | some (key, stack') => key :: allFrom isReverse stack'
termination_by pending isReverse stack
decreasing_by exact pending_nextObject _h

def allObjects (self : FTreeSortedDictionaryEnumerator κ ν) : List κ :=
  allFrom self.isReverse self.stack

end FTreeSortedDictionaryEnumerator

namespace FTreeSortedDictionary

variable (self : FTreeSortedDictionary κ ν)

def keyEnumerator : List κ := (FTreeSortedDictionaryEnumerator.new cmp self.root none false).allObjects

def keyEnumeratorFrom (startKey : κ) : List κ :=
  (FTreeSortedDictionaryEnumerator.new cmp self.root (some startKey) false).allObjects

def reverseKeyEnumerator : List κ :=
  (FTreeSortedDictionaryEnumerator.new cmp self.root none true).allObjects

def reverseKeyEnumeratorFrom (startKey : κ) : List κ :=
  (FTreeSortedDictionaryEnumerator.new cmp self.root (some startKey) true).allObjects

end FTreeSortedDictionary

namespace FArraySortedDictionary

variable (self : FArraySortedDictionary κ ν)

def keyEnumerator : List κ := self.entries.map Prod.fst

/-- The keys from a position on. -/
def keyEnumeratorFrom (startKey : κ) : List κ :=
  (self.entries.drop (self.findInsertPositionForKey cmp startKey)).map Prod.fst

def reverseKeyEnumerator : List κ := (self.entries.map Prod.fst).reverse

/-- The keys from a position down, which is the one before the place of the start
key unless that is there: `stop` is one more, as the first position has none
before it. -/
def reverseKeyEnumeratorFrom (startKey : κ) : List κ :=
  let startPos := self.findInsertPositionForKey cmp startKey
  let stop := match self.entries[startPos]? with
    | none => startPos
    | some entry => if cmp entry.1 startKey ≠ .eq then startPos else startPos + 1
  ((self.entries.take stop).map Prod.fst).reverse

end FArraySortedDictionary

namespace FImmutableSortedDictionary

def keyEnumerator : FImmutableSortedDictionary κ ν → List κ
  | .tree self => self.keyEnumerator cmp
  | .array self => self.keyEnumerator

def keyEnumeratorFrom (startKey : κ) : FImmutableSortedDictionary κ ν → List κ
  | .tree self => self.keyEnumeratorFrom cmp startKey
  | .array self => self.keyEnumeratorFrom cmp startKey

def reverseKeyEnumerator : FImmutableSortedDictionary κ ν → List κ
  | .tree self => self.reverseKeyEnumerator cmp
  | .array self => self.reverseKeyEnumerator

def reverseKeyEnumeratorFrom (startKey : κ) : FImmutableSortedDictionary κ ν → List κ
  | .tree self => self.reverseKeyEnumeratorFrom cmp startKey
  | .array self => self.reverseKeyEnumeratorFrom cmp startKey

end FImmutableSortedDictionary

section Upcoming

namespace FTreeSortedDictionaryEnumerator

variable {cmp} {isReverse : Bool} {startKey : Option κ} {key key' : κ}
  {node : FLLRBNode κ ν} {stack : List (FLLRBNode κ ν)}

/-- The keys under a node in the order of the enumerator. -/
def ordered (isReverse : Bool) (node : FLLRBNode κ ν) : List κ :=
  if isReverse then (node.entries.map Prod.fst).reverse else node.entries.map Prod.fst

theorem ordered_node (isReverse : Bool) (color : FLLRBColor) (left right : FLLRBNode κ ν) (key : κ)
    (value : ν) :
    ordered isReverse (.node color left key value right) =
      ordered isReverse (near isReverse (.node color left key value right)) ++
        key :: ordered isReverse (far isReverse (.node color left key value right)) := by
  cases isReverse <;> simp [ordered, near, far, entries]

/-- The keys that the nodes of a stack stand for. -/
def upcoming (isReverse : Bool) : List (FLLRBNode κ ν) → List κ
  | [] => []
  | .empty :: stack => upcoming isReverse stack
  | .node color left key value right :: stack =>
      key :: ordered isReverse (far isReverse (.node color left key value right)) ++
        upcoming isReverse stack

theorem upcoming_push (isReverse : Bool) (node : FLLRBNode κ ν) (stack : List (FLLRBNode κ ν)) :
    upcoming isReverse (push isReverse node stack) =
      ordered isReverse node ++ upcoming isReverse stack := by
  induction node generalizing stack with
  | empty => cases isReverse <;> rfl
  | node color left key value right ihleft ihright =>
      have hnear : upcoming isReverse (push isReverse
          (near isReverse (.node color left key value right))
          (.node color left key value right :: stack)) =
          ordered isReverse (near isReverse (.node color left key value right)) ++
            upcoming isReverse (.node color left key value right :: stack) := by
        cases isReverse with
        | true => exact ihright _
        | false => exact ihleft _
      rw [push_node, hnear, ordered_node, upcoming]
      simp

theorem push_not_empty (hstack : ∀ node ∈ stack, node.isEmpty = false) :
    ∀ pushed ∈ push isReverse node stack, pushed.isEmpty = false := by
  induction node generalizing stack with
  | empty => exact hstack
  | node color left key value right ihleft ihright =>
      have hpushed : ∀ pushed ∈ FLLRBNode.node color left key value right :: stack,
          pushed.isEmpty = false := by
        intro pushed hmem
        rcases List.mem_cons.mp hmem with rfl | hmem
        · rfl
        · exact hstack pushed hmem
      cases isReverse with
      | true => exact ihright hpushed
      | false => exact ihleft hpushed

/-- An enumerator gives what its stack stands for. -/
theorem allFrom_eq (hstack : ∀ node ∈ stack, node.isEmpty = false) :
    allFrom isReverse stack = upcoming isReverse stack := by
  induction stack using allFrom.induct isReverse with
  | case1 stack hnext =>
      rw [allFrom, hnext]
      match stack, hstack with
      | [], _ => rfl
      | .empty :: _, hstack => cases hstack _ List.mem_cons_self
      | .node .. :: _, _ => cases hnext
  | case2 stack key stack' hnext ih =>
      match stack, hstack with
      | .node color left key' value right :: rest, hstack =>
          obtain ⟨rfl, rfl⟩ := Prod.mk.inj (Option.some.inj hnext)
          have hrest : ∀ node ∈ rest, node.isEmpty = false :=
            fun node hmem => hstack node (List.mem_cons_of_mem _ hmem)
          rw [allFrom, hnext]
          change key' :: allFrom isReverse _ = _
          rw [ih (push_not_empty hrest), upcoming_push, upcoming]
          cases isReverse <;> rfl

variable (cmp) in
/-- One key comes before another in the order of the enumerator. -/
def Precedes (isReverse : Bool) (key key' : κ) : Prop :=
  if isReverse then cmp key' key = .lt else cmp key key' = .lt

theorem ordered_precedes {color : FLLRBColor} {left right : FLLRBNode κ ν} {value : ν}
    (h : Ascending cmp (FLLRBNode.node color left key value right).entries) :
    (∀ key' ∈ ordered isReverse (near isReverse (.node color left key value right)),
      Precedes cmp isReverse key' key) ∧
    ∀ key' ∈ ordered isReverse (far isReverse (.node color left key value right)),
      Precedes cmp isReverse key key' := by
  obtain ⟨_, _, hbelow, habove, _⟩ := ascending_node.mp h
  have hkeys : (∀ key' ∈ left.entries.map Prod.fst, cmp key' key = .lt) ∧
      ∀ key' ∈ right.entries.map Prod.fst, cmp key key' = .lt :=
    ⟨List.forall_mem_map.mpr hbelow, List.forall_mem_map.mpr habove⟩
  cases isReverse with
  | false => exact hkeys
  | true =>
      exact ⟨fun key' hmem => hkeys.2 key' (List.mem_reverse.mp hmem),
        fun key' hmem => hkeys.1 key' (List.mem_reverse.mp hmem)⟩

variable [Std.TransCmp cmp]

/-- Before a key that is not after the start, all are before it. -/
theorem orderTo_of_precedes (h : Precedes cmp isReverse key' key)
    (horder : orderTo cmp startKey isReverse key ≠ .gt) :
    orderTo cmp startKey isReverse key' = .lt := by
  cases startKey with
  | none =>
      cases isReverse with
      | false => exact absurd rfl horder
      | true => rfl
  | some start =>
      cases isReverse with
      | false =>
          change cmp key start ≠ .gt at horder
          exact Std.TransCmp.lt_of_lt_of_isLE h (by cases hcmp : cmp key start <;> simp_all)
      | true =>
          change (cmp key start).swap ≠ .gt at horder
          change cmp key key' = .lt at h
          change (cmp key' start).swap = .lt
          rw [← Std.OrientedCmp.eq_swap] at horder ⊢
          exact Std.TransCmp.lt_of_isLE_of_lt (by cases hcmp : cmp start key <;> simp_all) h

/-- After a key that is not before the start, all are after it. -/
theorem orderTo_of_preceded (h : Precedes cmp isReverse key key')
    (horder : orderTo cmp startKey isReverse key ≠ .lt) :
    orderTo cmp startKey isReverse key' ≠ .lt := by
  intro hlt
  exact horder (orderTo_of_precedes h (by simp [hlt]))

/-- Going down to the start leaves on the stack what is not before it. -/
theorem upcoming_startStack (h : Ascending cmp node.entries) (stack : List (FLLRBNode κ ν)) :
    upcoming isReverse (startStack cmp startKey isReverse node stack) =
      (ordered isReverse node).filter (fun key => orderTo cmp startKey isReverse key ≠ .lt) ++
        upcoming isReverse stack := by
  induction node generalizing stack with
  | empty => cases isReverse <;> rfl
  | node color left key value right ihleft ihright =>
      obtain ⟨hleft, hright, _⟩ := ascending_node.mp h
      obtain ⟨hnear, hfar⟩ := @ordered_precedes _ _ _ isReverse _ _ _ _ _ h
      have hnone : orderTo cmp startKey isReverse key ≠ .gt →
          (ordered isReverse (near isReverse (.node color left key value right))).filter
            (fun key => orderTo cmp startKey isReverse key ≠ .lt) = [] := by
        intro horder
        refine List.filter_eq_nil_iff.mpr fun key' hmem => ?_
        simp [orderTo_of_precedes (hnear key' hmem) horder]
      have hall : orderTo cmp startKey isReverse key ≠ .lt →
          (ordered isReverse (far isReverse (.node color left key value right))).filter
            (fun key => orderTo cmp startKey isReverse key ≠ .lt) =
          ordered isReverse (far isReverse (.node color left key value right)) := by
        intro horder
        refine List.filter_eq_self.mpr fun key' hmem => ?_
        simpa using orderTo_of_preceded (hfar key' hmem) horder
      rw [ordered_node, List.filter_append, List.filter_cons, startStack]
      cases horder : orderTo cmp startKey isReverse key with
      | lt =>
          rw [hnone (by simp [horder])]
          cases isReverse with
          | false => simpa [far] using ihright hright stack
          | true => simpa [far] using ihleft hleft stack
      | eq =>
          rw [hnone (by simp [horder]), hall (by simp [horder])]
          simp [upcoming]
      | gt =>
          rw [hall (by simp [horder])]
          cases isReverse with
          | false =>
              have hdown := ihleft hleft (.node color left key value right :: stack)
              rw [upcoming] at hdown
              simpa [near] using hdown
          | true =>
              have hdown := ihright hright (.node color left key value right :: stack)
              rw [upcoming] at hdown
              simpa [near] using hdown

end FTreeSortedDictionaryEnumerator

end Upcoming

section Keys

variable {cmp} {d : FImmutableSortedDictionary κ ν} {entries : List (κ × ν)}

theorem startStack_not_empty {startKey : Option κ} {isReverse : Bool} {node : FLLRBNode κ ν}
    {stack : List (FLLRBNode κ ν)} (hstack : ∀ node ∈ stack, node.isEmpty = false) :
    ∀ pushed ∈ FTreeSortedDictionaryEnumerator.startStack cmp startKey isReverse node stack,
      pushed.isEmpty = false := by
  induction node generalizing stack with
  | empty => exact hstack
  | node color left key value right ihleft ihright =>
      have hpushed : ∀ pushed ∈ FLLRBNode.node color left key value right :: stack,
          pushed.isEmpty = false := by
        intro pushed hmem
        rcases List.mem_cons.mp hmem with rfl | hmem
        · rfl
        · exact hstack pushed hmem
      rw [FTreeSortedDictionaryEnumerator.startStack]
      cases FTreeSortedDictionaryEnumerator.orderTo cmp startKey isReverse key with
      | lt =>
          cases isReverse with
          | false => exact ihright hstack
          | true => exact ihleft hstack
      | eq => exact hpushed
      | gt =>
          cases isReverse with
          | false => exact ihleft hpushed
          | true => exact ihright hpushed

variable (cmp) in
/-- The array up to the place of a key, and from it on. -/
theorem exists_split (startKey : κ) (entries : List (κ × ν)) :
    ∃ before rest, entries = before ++ rest ∧
      (entries.takeWhile fun entry => cmp entry.1 startKey = .lt) = before ∧
      (∀ entry ∈ before, cmp entry.1 startKey = .lt) ∧
      ∀ entry ∈ rest.head?, cmp entry.1 startKey ≠ .lt := by
  refine ⟨_, _, List.takeWhile_append_dropWhile.symm, rfl, ?_, ?_⟩
  · intro entry hentry
    simpa using List.mem_takeWhile_imp hentry
  · intro entry hentry
    have hnot := List.head?_dropWhile_not (fun entry : κ × ν => decide (cmp entry.1 startKey = .lt))
      entries
    rw [Option.mem_def.mp hentry] at hnot
    simpa using hnot

variable [Std.TransCmp cmp]

theorem newAllObjects_eq {root : FLLRBNode κ ν} (h : Ascending cmp root.entries)
    (startKey : Option κ) (isReverse : Bool) :
    (FTreeSortedDictionaryEnumerator.new cmp root startKey isReverse).allObjects =
      (FTreeSortedDictionaryEnumerator.ordered isReverse root).filter
        (fun key => FTreeSortedDictionaryEnumerator.orderTo cmp startKey isReverse key ≠ .lt) := by
  have hempty : ∀ node ∈ ([] : List (FLLRBNode κ ν)), node.isEmpty = false := by simp
  refine (FTreeSortedDictionaryEnumerator.allFrom_eq (startStack_not_empty hempty)).trans ?_
  exact (FTreeSortedDictionaryEnumerator.upcoming_startStack h []).trans (List.append_nil _)

/-- From the place of a key on nothing is below it, and what is equal comes first. -/
theorem rest_order {startKey : κ} {entry : κ × ν} {rest : List (κ × ν)}
    (h : Ascending cmp (entry :: rest)) (hentry : cmp entry.1 startKey ≠ .lt) :
    ∀ later ∈ rest, cmp later.1 startKey = .gt := by
  intro later hlater
  rw [Std.OrientedCmp.gt_iff_lt]
  refine Std.TransCmp.lt_of_isLE_of_lt ?_ ((SortedList.ascending_cons.mp h).1 later hlater)
  rw [@Std.OrientedCmp.eq_swap _ cmp _ startKey entry.1]
  cases hcmp : cmp entry.1 startKey with
  | lt => exact absurd hcmp hentry
  | eq | gt => rfl

theorem array_keyEnumeratorFrom_eq {self : FArraySortedDictionary κ ν}
    (h : Ascending cmp self.entries) (startKey : κ) :
    self.keyEnumeratorFrom cmp startKey =
      (self.entries.map Prod.fst).filter (cmp · startKey ≠ .lt) := by
  obtain ⟨before, rest, hsplit, htake, hbefore, hrest⟩ := exists_split cmp startKey self.entries
  have hnone : (before.map Prod.fst).filter (cmp · startKey ≠ .lt) = [] :=
    List.filter_eq_nil_iff.mpr (List.forall_mem_map.mpr fun entry hmem => by
      simp [hbefore entry hmem])
  have hall : (rest.map Prod.fst).filter (cmp · startKey ≠ .lt) = rest.map Prod.fst := by
    refine List.filter_eq_self.mpr (List.forall_mem_map.mpr fun later hmem => ?_)
    cases rest with
    | nil => cases hmem
    | cons entry rest =>
        have hlater : Ascending cmp (entry :: rest) :=
          h.sublist (hsplit ▸ List.sublist_append_right before _)
        rcases List.mem_cons.mp hmem with rfl | hmem
        · simpa using hrest later rfl
        · simp [rest_order hlater (hrest entry rfl) later hmem]
  rw [FArraySortedDictionary.keyEnumeratorFrom, FArraySortedDictionary.findInsertPositionForKey,
    htake, hsplit, List.drop_left, List.map_append, List.filter_append, hnone, hall]
  rfl

theorem array_reverseKeyEnumeratorFrom_eq {self : FArraySortedDictionary κ ν}
    (h : Ascending cmp self.entries) (startKey : κ) :
    self.reverseKeyEnumeratorFrom cmp startKey =
      ((self.entries.map Prod.fst).filter (cmp · startKey ≠ .gt)).reverse := by
  obtain ⟨before, rest, hsplit, htake, hbefore, hrest⟩ := exists_split cmp startKey self.entries
  have hall : (before.map Prod.fst).filter (cmp · startKey ≠ .gt) = before.map Prod.fst :=
    List.filter_eq_self.mpr (List.forall_mem_map.mpr fun entry hmem => by
      simp [hbefore entry hmem])
  rw [FArraySortedDictionary.reverseKeyEnumeratorFrom,
    FArraySortedDictionary.findInsertPositionForKey, htake, hsplit, List.map_append,
    List.filter_append, hall]
  cases rest with
  | nil => simp
  | cons entry rest =>
      have hlater : Ascending cmp (entry :: rest) :=
        h.sublist (hsplit ▸ List.sublist_append_right before _)
      have hnone : (rest.map Prod.fst).filter (cmp · startKey ≠ .gt) = [] :=
        List.filter_eq_nil_iff.mpr (List.forall_mem_map.mpr fun later hmem => by
          simp [rest_order hlater (hrest entry rfl) later hmem])
      rw [List.map_cons, List.filter_cons, hnone]
      have hnot : cmp entry.1 startKey ≠ .lt := hrest entry rfl
      cases hcmp : cmp entry.1 startKey with
      | lt => exact absurd hcmp hnot
      | eq => simp [hcmp, List.take_add_one]
      | gt => simp [hcmp]

open FImmutableSortedDictionary

variable {dictionary : List (κ × ν)} {updates : List (Update κ ν)}
  {d' : FImmutableSortedDictionary κ ν}

/-- From a start key, the keys on either side of it and itself, if it is there.
From the end, an array gives all its keys, and a tree none: there the lack of a
start key is before every key once the order is turned. -/
theorem enumerators_eq (h : fromDictionary cmp dictionary = .ok d)
    (hrun : run cmp updates d = .ok d') :
    d'.keyEnumerator cmp = d'.entries.map Prod.fst ∧
    (∀ startKey, d'.keyEnumeratorFrom cmp startKey =
      (d'.entries.map Prod.fst).filter (cmp · startKey ≠ .lt)) ∧
    (∀ startKey, d'.reverseKeyEnumeratorFrom cmp startKey =
      ((d'.entries.map Prod.fst).filter (cmp · startKey ≠ .gt)).reverse) ∧
    d'.reverseKeyEnumerator cmp =
      match d' with
      | .array _ => (d'.entries.map Prod.fst).reverse
      | .tree _ => [] := by
  obtain ⟨_, hsound⟩ := fromDictionary_eq_ok h
  obtain ⟨found, hfound, hsound', _⟩ := run_eq hsound updates
  obtain rfl := Except.ok.inj (hrun.symm.trans hfound)
  cases d' with
  | array self =>
      exact ⟨rfl, array_keyEnumeratorFrom_eq hsound'.1, array_reverseKeyEnumeratorFrom_eq hsound'.1,
        rfl⟩
  | tree self =>
      refine ⟨?_, fun startKey => ?_, fun startKey => ?_, ?_⟩
      · refine (newAllObjects_eq hsound'.1 none false).trans ?_
        exact List.filter_eq_self.mpr fun _ _ => rfl
      · exact newAllObjects_eq hsound'.1 (some startKey) false
      · refine (newAllObjects_eq hsound'.1 (some startKey) true).trans ?_
        rw [← List.filter_reverse]
        refine List.filter_congr fun key _ => ?_
        change decide ((cmp key startKey).swap ≠ .lt) = decide (cmp key startKey ≠ .gt)
        cases cmp key startKey <;> rfl
      · refine (newAllObjects_eq hsound'.1 none true).trans ?_
        exact List.filter_eq_nil_iff.mpr fun _ _ => by simp [FTreeSortedDictionaryEnumerator.orderTo]

theorem enumerators_eq_of_range :
    ∃ root : FLLRBNode Nat Nat,
      fromDictionary compare ((List.range 26).map fun k => (k, k)) = .ok (.tree { root }) ∧
      (FImmutableSortedDictionary.tree { root }).keyEnumerator compare =
        root.entries.map Prod.fst ∧
      (∀ startKey, (FImmutableSortedDictionary.tree { root }).keyEnumeratorFrom compare startKey =
        (root.entries.map Prod.fst).filter (compare · startKey ≠ .lt)) ∧
      (∀ startKey,
        (FImmutableSortedDictionary.tree { root }).reverseKeyEnumeratorFrom compare startKey =
          ((root.entries.map Prod.fst).filter (compare · startKey ≠ .gt)).reverse) ∧
      (FImmutableSortedDictionary.tree { root }).reverseKeyEnumerator compare = [] := by
  obtain ⟨root, hroot⟩ := fromDictionary_range
  exact ⟨root, hroot, @enumerators_eq Nat Nat compare (.tree { root }) _ _ [] (.tree { root })
    hroot rfl⟩

end Keys

end FirebaseDatabase
