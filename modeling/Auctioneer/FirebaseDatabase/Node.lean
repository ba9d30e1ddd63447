import Auctioneer.FirebaseDatabase.DictionaryRuns
import Auctioneer.FirebaseDatabase.Keys
import Auctioneer.FirebaseDatabase.Path

/-!
The nodes of the client's tree, without their priorities, and how a node is put
at a path. No node but the root is empty. The key `.priority`, by which the code
reads and sets the priority of a node, is an ordinary key here, so results about
what is put are for paths without it.
-/

namespace FirebaseDatabase

open FUtilities (compareKey)
open SortedList (Ascending)

/-- An `FLeafNode` or an `FChildrenNode`. -/
inductive FNode (V : Type) where
  | leaf (value : V)
  | children (someChildren : FImmutableSortedDictionary String (FNode V))

namespace FNode

variable {V : Type}

def emptyNode : FNode V := .children .dictionaryWithComparator

def isEmpty : FNode V → Bool
  | .leaf _ => false
  | .children someChildren => someChildren.count = 0

def getImmediateChild (childName : String) : FNode V → FNode V
  | .leaf _ => emptyNode
  | .children someChildren => (someChildren.get compareKey childName).getD emptyNode

/-- `getChild` along the segments of a path. -/
def getChildAt : List String → FNode V → FNode V
  | [], self => self
  | front :: rest, self =>
      match self with
      | .leaf _ => emptyNode
      | .children _ => getChildAt rest (self.getImmediateChild front)

def getChild (path : FPath) (self : FNode V) : FNode V := self.getChildAt path.segments

/-- The dictionary with one child set, or removed for an empty one. -/
def newChildren (someChildren : FImmutableSortedDictionary String (FNode V)) (childName : String)
    (newChildNode : FNode V) : Except String (FImmutableSortedDictionary String (FNode V)) :=
  if newChildNode.isEmpty then .ok (someChildren.removeKey compareKey childName)
  else someChildren.insertKey compareKey childName newChildNode

/-- `updateImmediateChild` of a node with children. -/
def setChild (someChildren : FImmutableSortedDictionary String (FNode V)) (childName : String)
    (newChildNode : FNode V) : Except String (FNode V) :=
  (newChildren someChildren childName newChildNode).map fun newChildren =>
    if newChildren.count = 0 then emptyNode else .children newChildren

def updateImmediateChild (childName : String) (newChildNode : FNode V) :
    FNode V → Except String (FNode V)
  | .leaf value =>
      if newChildNode.isEmpty then .ok (.leaf value)
      else setChild .dictionaryWithComparator childName newChildNode
  | .children someChildren => setChild someChildren childName newChildNode

/-- `updateChild` along the segments of a path, none of them `.priority`. -/
def updateChildAt (newChildNode : FNode V) : List String → FNode V → Except String (FNode V)
  | [], _ => .ok newChildNode
  | front :: rest, .leaf value =>
      if newChildNode.isEmpty then .ok (.leaf value)
      else do
        let newImmediateChild ← updateChildAt newChildNode rest emptyNode
        updateImmediateChild front newImmediateChild (.leaf value)
  | front :: rest, .children someChildren => do
      let newImmediateChild ←
        updateChildAt newChildNode rest ((FNode.children someChildren).getImmediateChild front)
      updateImmediateChild front newImmediateChild (.children someChildren)

def updateChild (path : FPath) (newChildNode self : FNode V) : Except String (FNode V) :=
  updateChildAt newChildNode path.segments self

/-- The paths of children. -/
abbrev ChildPath := {path : FPath // ".priority" ∉ path.segments}

/-- The value at a path, if a leaf is there. -/
def leafAt (path : List String) (self : FNode V) : Option V :=
  match self.getChildAt path with
  | .leaf value => some value
  | .children _ => none

/-- The dictionaries are sound and hold no empty node. -/
inductive Sound : FNode V → Prop where
  | leaf (value : V) : Sound (.leaf value)
  | children {someChildren : FImmutableSortedDictionary String (FNode V)} :
      FImmutableSortedDictionary.Sound compareKey someChildren →
      (∀ entry ∈ someChildren.entries, Sound entry.2) →
      (∀ entry ∈ someChildren.entries, entry.2.isEmpty = false) → Sound (.children someChildren)

variable {self newChildNode : FNode V} {someChildren : FImmutableSortedDictionary String (FNode V)}
  {childName : String} {path : List String}

theorem sound_emptyNode : Sound (emptyNode : FNode V) :=
  .children ⟨SortedList.ascending_nil, Nat.zero_le _⟩ nofun nofun

@[simp] theorem leafAt_nil_leaf (value : V) : leafAt [] (.leaf value) = some value := rfl

@[simp] theorem leafAt_nil_children : leafAt [] (.children someChildren) = none := rfl

@[simp] theorem leafAt_cons_leaf (front : String) (rest : List String) (value : V) :
    leafAt (front :: rest) (.leaf value) = none := rfl

@[simp] theorem isEmpty_emptyNode : isEmpty (emptyNode : FNode V) = true := rfl

@[simp] theorem leafAt_emptyNode (path : List String) : leafAt path (emptyNode : FNode V) = none := by
  induction path with
  | nil => rfl
  | cons front rest ih => exact ih

theorem leafAt_cons (front : String) (rest : List String) (self : FNode V) :
    leafAt (front :: rest) self = leafAt rest (self.getImmediateChild front) := by
  cases self with
  | leaf => exact (leafAt_emptyNode rest).symm
  | children => rfl

theorem isEmpty_iff : isEmpty (.children someChildren) = true ↔ someChildren.entries = [] := by
  rw [isEmpty, FImmutableSortedDictionary.count_eq, decide_eq_true_eq, List.length_eq_zero_iff]

theorem getImmediateChild_eq (h : Sound (.children someChildren)) (childName : String) :
    getImmediateChild childName (.children someChildren) =
      (SortedList.find compareKey childName someChildren.entries).getD emptyNode := by
  cases h with
  | children hsound _ _ =>
      rw [getImmediateChild, FImmutableSortedDictionary.get_eq hsound]

theorem Sound.getImmediateChild (h : Sound self) (childName : String) :
    Sound (self.getImmediateChild childName) := by
  cases self with
  | leaf => exact sound_emptyNode
  | children someChildren =>
      rw [getImmediateChild_eq h]
      cases hfind : SortedList.find compareKey childName someChildren.entries with
      | none => exact sound_emptyNode
      | some child =>
          obtain ⟨entry, hmem, _, rfl⟩ := SortedList.exists_mem_of_find hfind
          cases h with
          | children _ hall _ => exact hall entry hmem

/-- A node that is empty holds nothing. -/
theorem leafAt_of_isEmpty (h : Sound self) (hempty : self.isEmpty = true) (path : List String) :
    leafAt path self = none := by
  cases self with
  | leaf => cases hempty
  | children someChildren =>
      cases path with
      | nil => rfl
      | cons front rest =>
          rw [leafAt_cons, getImmediateChild_eq h, isEmpty_iff.mp hempty]
          exact leafAt_emptyNode rest

/-- A node that is not holds something. -/
theorem exists_leafAt (h : Sound self) (hempty : self.isEmpty = false) :
    ∃ path value, leafAt path self = some value := by
  induction h with
  | leaf value => exact ⟨[], value, rfl⟩
  | @children someChildren hsound hall hfull ih =>
      have hne : someChildren.entries ≠ [] := by
        intro hnil
        rw [isEmpty_iff.mpr hnil] at hempty
        cases hempty
      obtain ⟨entry, rest, hentries⟩ := List.exists_cons_of_ne_nil hne
      have hmem : entry ∈ someChildren.entries := hentries ▸ List.mem_cons_self
      obtain ⟨path, value, hvalue⟩ := ih entry hmem (hfull entry hmem)
      refine ⟨entry.1 :: path, value, ?_⟩
      rw [leafAt_cons, getImmediateChild_eq (.children hsound hall hfull),
        SortedList.find_of_mem hsound.ascending hmem]
      exact hvalue

section Update

/-- Under the child's name is the new child, and an empty one is nothing. -/
theorem setChild_eq (h : Sound (.children someChildren)) (hnew : Sound newChildNode)
    (childName : String) :
    ∃ node, setChild someChildren childName newChildNode = .ok node ∧ Sound node ∧
      leafAt [] node = none ∧
      ∀ front rest, leafAt (front :: rest) node =
        if compareKey front childName = .eq then leafAt rest newChildNode
        else leafAt (front :: rest) (.children someChildren) := by
  cases h with
  | children hsound hall hfull =>
  have hset : ∃ children', newChildren someChildren childName newChildNode = .ok children' ∧
      Sound (.children children') ∧
      ∀ front, (SortedList.find compareKey front children'.entries).getD emptyNode =
        if compareKey front childName = .eq then
          if newChildNode.isEmpty then emptyNode else newChildNode
        else (SortedList.find compareKey front someChildren.entries).getD emptyNode := by
    cases hempty : newChildNode.isEmpty with
    | true =>
        obtain ⟨hentries, hsound'⟩ := FImmutableSortedDictionary.removeKey_eq hsound childName
        refine ⟨_, by rw [newChildren, if_pos hempty], .children hsound' ?_ ?_, fun front => ?_⟩
        · rw [hentries]
          exact fun entry hmem => hall entry (SortedList.erase_sublist.mem hmem)
        · rw [hentries]
          exact fun entry hmem => hfull entry (SortedList.erase_sublist.mem hmem)
        · rw [hentries, SortedList.find_erase hsound.ascending]
          split <;> rfl
    | false =>
        obtain ⟨children', pick, hinsert, hpick, hentries, hsound'⟩ :=
          FImmutableSortedDictionary.insertKey_eq hsound childName newChildNode
        refine ⟨children', by rw [newChildren, if_neg (by simp [hempty]), hinsert],
          .children hsound' ?_ ?_, fun front => ?_⟩
        · rw [hentries]
          intro entry hmem
          rcases SortedList.value_of_mem_insert hmem with heq | hmem
          · exact heq ▸ hnew
          · exact hall entry hmem
        · rw [hentries]
          intro entry hmem
          rcases SortedList.value_of_mem_insert hmem with heq | hmem
          · exact heq ▸ hempty
          · exact hfull entry hmem
        · rw [hentries, SortedList.find_insert hpick hsound.ascending]
          split <;> rfl
  obtain ⟨children', hresult, hsound', hfind⟩ := hset
  have hleaf : ∀ front rest, leafAt (front :: rest) (.children children') =
      if compareKey front childName = .eq then leafAt rest newChildNode
      else leafAt (front :: rest) (.children someChildren) := by
    intro front rest
    rw [leafAt_cons, leafAt_cons, getImmediateChild_eq hsound', hfind,
      getImmediateChild_eq (.children hsound hall hfull)]
    split
    · split
      · next hempty => rw [leafAt_of_isEmpty hnew hempty, leafAt_emptyNode]
      · rfl
    · rfl
  refine ⟨_, by rw [setChild, hresult]; rfl, ?_⟩
  dsimp only
  split
  · next hcount =>
    have hempty : isEmpty (.children children') = true := decide_eq_true hcount
    refine ⟨sound_emptyNode, rfl, fun front rest => ?_⟩
    rw [← hleaf, leafAt_of_isEmpty hsound' hempty, leafAt_emptyNode]
  · exact ⟨hsound', rfl, hleaf⟩

/-- What is left of a path below another, by keys that compare equal. -/
def relative : List String → List String → Option (List String)
  | [], path => some path
  | _ :: _, [] => none
  | front :: rest, front' :: rest' =>
      if compareKey front' front = .eq then relative rest rest' else none

/-- What is at a path once a node has been put at another: what the node has
there. Above it there is no leaf, unless the node is empty. -/
def updated (newChildNode : FNode V) (path : List String) (self : FNode V) (other : List String) :
    Option V :=
  match relative path other with
  | some below => leafAt below newChildNode
  | none => if !newChildNode.isEmpty && (relative other path).isSome then none else leafAt other self

theorem relative_self_append (path below : List String) :
    relative path (path ++ below) = some below := by
  induction path with
  | nil => rfl
  | cons front rest ih =>
      rw [List.cons_append, relative, if_pos Std.ReflCmp.compare_self, ih]

theorem getImmediateChild_congr {childName' : String} (h : Sound self)
    (heq : compareKey childName childName' = .eq) :
    self.getImmediateChild childName = self.getImmediateChild childName' := by
  cases self with
  | leaf => rfl
  | children someChildren =>
      rw [getImmediateChild_eq h, getImmediateChild_eq h, SortedList.find_congr heq]

/-- One step down: a new child under its name, in a node whose children `self` has. -/
theorem updateBelow (h : Sound (.children someChildren)) (front : String) (rest : List String)
    (hkept : newChildNode.isEmpty = true → leafAt [] self = none)
    (hbelow : ∀ front' rest', leafAt (front' :: rest') self =
      leafAt (front' :: rest') (.children someChildren)) {child : FNode V} (hchild : Sound child)
    (hleaf : ∀ other, leafAt other child =
      updated newChildNode rest (getImmediateChild front (.children someChildren)) other) :
    ∃ node, setChild someChildren front child = .ok node ∧ Sound node ∧
      ∀ other, leafAt other node = updated newChildNode (front :: rest) self other := by
  obtain ⟨node, hnode, hsound, hroot, hset⟩ := setChild_eq h hchild front
  refine ⟨node, hnode, hsound, fun other => ?_⟩
  cases other with
  | nil =>
      rw [hroot, updated]
      cases hempty : newChildNode.isEmpty with
      | true => simp [relative, hkept hempty]
      | false => simp [relative]
  | cons front' rest' =>
      rw [hset, updated, relative, relative, hbelow, leafAt_cons]
      by_cases heq : compareKey front' front = .eq
      · have heq' : compareKey front front' = .eq := Std.OrientedCmp.eq_symm heq
        rw [if_pos heq, if_pos heq, if_pos heq', hleaf, updated, getImmediateChild_congr h heq]
      · have heq' : compareKey front front' ≠ .eq := fun heq' =>
          heq (Std.OrientedCmp.eq_symm heq')
        rw [if_neg heq, if_neg heq, if_neg heq']
        simp

theorem updateChildAt_eq (h : Sound self) (hnew : Sound newChildNode) (path : List String) :
    ∃ node, updateChildAt newChildNode path self = .ok node ∧ Sound node ∧
      ∀ other, leafAt other node = updated newChildNode path self other := by
  induction path generalizing self with
  | nil => exact ⟨newChildNode, rfl, hnew, fun _ => rfl⟩
  | cons front rest ih =>
      cases self with
      | children someChildren =>
          obtain ⟨child, hchild, hsound, hleaf⟩ := ih (h.getImmediateChild front)
          rw [updateChildAt, hchild]
          exact updateBelow h front rest (fun _ => rfl) (fun _ _ => rfl) hsound hleaf
      | leaf value =>
          cases hempty : newChildNode.isEmpty with
          | true =>
              refine ⟨.leaf value, by rw [updateChildAt, if_pos hempty], h, fun other => ?_⟩
              rw [updated, hempty]
              cases hbelow : relative (front :: rest) other with
              | none => rfl
              | some below =>
                  cases other with
                  | nil => cases hbelow
                  | cons => exact (leafAt_of_isEmpty hnew hempty below).symm
          | false =>
              -- The leaf gives way to a node with one child.
              obtain ⟨child, hchild, hsound, hleaf⟩ := ih (sound_emptyNode (V := V))
              have hfull : child.isEmpty = false := by
                obtain ⟨below, found, hfound⟩ := exists_leafAt hnew hempty
                have hthere := hleaf (rest ++ below)
                rw [updated, relative_self_append] at hthere
                cases hchildEmpty : child.isEmpty with
                | false => rfl
                | true =>
                    rw [leafAt_of_isEmpty hsound hchildEmpty] at hthere
                    simp [← hthere] at hfound
              have hnone : ∀ front' rest', leafAt (front' :: rest') (.leaf value : FNode V) =
                  leafAt (front' :: rest') emptyNode := by simp
              rw [updateChildAt, if_neg (by simp [hempty]), hchild]
              simp only [bind, Except.bind, updateImmediateChild, hfull]
              exact updateBelow sound_emptyNode front rest (by simp [hempty]) hnone hsound hleaf

/-- A node is put at a path, whatever was there or above it, and the rest stays. -/
theorem updateChild_eq (h : Sound self) (hnew : Sound newChildNode) (path : ChildPath) :
    ∃ node, updateChild path newChildNode self = .ok node ∧ Sound node ∧
      ∀ other, leafAt other node = updated newChildNode path.1.segments self other :=
  updateChildAt_eq h hnew path.1.segments

theorem updateChild_eq_of_lamp :
    ∃ node, updateChild (.initWith "Lamp/price") (.leaf 12) (.leaf 7 : FNode Nat) = .ok node ∧
      Sound node ∧
      ∀ other, leafAt other node = updated (.leaf 12) ["Lamp", "price"] (.leaf 7) other :=
  updateChild_eq (.leaf 7) (.leaf 12) ⟨.initWith "Lamp/price", by decide⟩

/-- A path is on the way to another, or it. -/
def Above (path other : List String) : Prop := (relative path other).isSome = true

instance (path other : List String) : Decidable (Above path other) :=
  inferInstanceAs (Decidable (_ = true))

theorem relative_eq_none_iff {path other : List String} :
    relative path other = none ↔ ¬Above path other := by
  rw [Above, Bool.not_eq_true, Option.isSome_eq_false_iff, Option.isNone_iff_eq_none]

theorem above_cons {front front' : String} {rest rest' : List String} :
    Above (front :: rest) (front' :: rest') ↔
      compareKey front' front = .eq ∧ Above rest rest' := by
  rw [Above, relative]
  split
  · next heq => simp [heq, Above]
  · next hne => simp [hne]

theorem Above.trans {path path' path'' : List String} (h : Above path path')
    (h' : Above path' path'') : Above path path'' := by
  induction path generalizing path' path'' with
  | nil => rfl
  | cons front rest ih =>
      match path', path'', h, h' with
      | front' :: rest', front'' :: rest'', h, h' =>
          obtain ⟨heq, habove⟩ := above_cons.mp h
          obtain ⟨heq', habove'⟩ := above_cons.mp h'
          exact above_cons.mpr ⟨Std.TransCmp.eq_trans heq' heq, ih habove habove'⟩

/-- Of two paths on the way to a third, one is on the way to the other. -/
theorem above_or_above {path path' other : List String} (h : Above path other)
    (h' : Above path' other) : Above path path' ∨ Above path' path := by
  induction path generalizing path' other with
  | nil => exact .inl rfl
  | cons front rest ih =>
      match path', other, h, h' with
      | [], _, _, _ => exact .inr rfl
      | front' :: rest', front'' :: rest'', h, h' =>
          obtain ⟨heq, habove⟩ := above_cons.mp h
          obtain ⟨heq', habove'⟩ := above_cons.mp h'
          have hsame : compareKey front' front = .eq :=
            Std.TransCmp.eq_trans (Std.OrientedCmp.eq_symm heq') heq
          rw [above_cons, above_cons]
          exact (ih habove habove').imp (⟨hsame, ·⟩) (⟨Std.OrientedCmp.eq_symm hsame, ·⟩)

theorem updated_of_not_above {path other : List String} (h : ¬Above path other) :
    updated newChildNode path self other =
      if newChildNode.isEmpty = false ∧ Above other path then none else leafAt other self := by
  rw [updated, relative_eq_none_iff.mpr h]
  refine if_congr ?_ rfl rfl
  rw [Bool.and_eq_true, Bool.not_eq_true', Above]

theorem updated_of_above {path other : List String} (h : Above path other) (self' : FNode V) :
    updated newChildNode path self other = updated newChildNode path self' other := by
  obtain ⟨below, hbelow⟩ := Option.isSome_iff_exists.mp h
  rw [updated, updated, hbelow]

/-- Nodes put at paths apart can be put in either order. Of two put at one path,
or the second on the way to the first, only the second is seen: a first one that
is not empty may have taken away a leaf that an empty one leaves. -/
theorem updateChild_twice {first second : FNode V} (h : Sound self) (hfirst : Sound first)
    (hsecond : Sound second) (path path' : ChildPath) :
    ∃ one other both both',
      updateChild path first self = .ok one ∧ updateChild path' second one = .ok both ∧
      updateChild path' second self = .ok other ∧ updateChild path first other = .ok both' ∧
      (¬Above path.1.segments path'.1.segments → ¬Above path'.1.segments path.1.segments →
        ∀ place, leafAt place both = leafAt place both') ∧
      (Above path'.1.segments path.1.segments → (second.isEmpty = true → first.isEmpty = true) →
        ∀ place, leafAt place both = leafAt place other) := by
  obtain ⟨⟨path, _⟩, ⟨path', _⟩⟩ := path, path'
  obtain ⟨one, hone, hones, honel⟩ := updateChildAt_eq h hfirst path.segments
  obtain ⟨both, hboth, _, hbothl⟩ := updateChildAt_eq hones hsecond path'.segments
  obtain ⟨other, hother, hothers, hotherl⟩ := updateChildAt_eq h hsecond path'.segments
  obtain ⟨both', hboth', _, hbothl'⟩ := updateChildAt_eq hothers hfirst path.segments
  refine ⟨one, other, both, both', hone, hboth, hother, hboth', fun hnot hnot' place => ?_,
    fun habove hempty place => ?_⟩
  · rw [hbothl, hbothl']
    by_cases hbelow : Above path.segments place
    · have hbelow' : ¬Above path'.segments place := fun hbelow' =>
        (above_or_above hbelow hbelow').elim hnot hnot'
      have hup : ¬Above place path'.segments := fun hup => hnot (hbelow.trans hup)
      rw [updated_of_not_above hbelow', if_neg (fun hmet => hup hmet.2), honel]
      exact updated_of_above hbelow other ▸ rfl
    · by_cases hbelow' : Above path'.segments place
      · have hup : ¬Above place path.segments := fun hup => hnot' (hbelow'.trans hup)
        rw [updated_of_not_above hbelow, if_neg (fun hmet => hup hmet.2), hotherl]
        exact updated_of_above hbelow' one ▸ rfl
      · rw [updated_of_not_above hbelow, updated_of_not_above hbelow', honel, hotherl,
          updated_of_not_above hbelow, updated_of_not_above hbelow']
        split_ifs <;> rfl
  · rw [hbothl, hotherl]
    by_cases hbelow' : Above path'.segments place
    · exact updated_of_above hbelow' self ▸ rfl
    · have hbelow : ¬Above path.segments place := fun hbelow => hbelow' (habove.trans hbelow)
      rw [updated_of_not_above hbelow', updated_of_not_above hbelow', honel,
        updated_of_not_above hbelow]
      by_cases hup : Above place path.segments
      · have hup' : Above place path'.segments :=
          (above_or_above hup habove).resolve_right hbelow'
        cases hsecondEmpty : second.isEmpty with
        | true => simp [hempty hsecondEmpty]
        | false => simp [hup']
      · simp [hup]

/-- A leaf below another is set, and the one above is then set again. -/
theorem updateChild_twice_of_lamp :
    ∃ one other both : FNode Nat,
      updateChild (.initWith "Lamp/price") (.leaf 12) (.leaf 7) = .ok one ∧
      updateChild (.initWith "Lamp") (.leaf 3) one = .ok both ∧
      updateChild (.initWith "Lamp") (.leaf 3) (.leaf 7) = .ok other ∧
      ∀ place, leafAt place both = leafAt place other := by
  obtain ⟨one, other, both, _, hone, hboth, hother, _, _, hsame⟩ :=
    updateChild_twice (.leaf 7) (.leaf 12) (.leaf 3) ⟨.initWith "Lamp/price", by decide⟩
      ⟨.initWith "Lamp", by decide⟩
  exact ⟨one, other, both, hone, hboth, hother, hsame (by decide) nofun⟩

end Update

end FNode

end FirebaseDatabase
