import Auctioneer.FirebaseDatabase.ImmutableTree
import Auctioneer.FirebaseDatabase.Node
import Auctioneer.Library.Layers
import Auctioneer.Library.Traverse

/-!
Several writes as one: a tree of the nodes that they put at their paths. A write
of a priority, which is applied last and only to a node that is not empty, is left
out: `applySubtreeWrite` is for trees without the key `.priority`.
-/

namespace FirebaseDatabase

open FUtilities (compareKey)
open FImmutableTree (coverAt)
open Layers (Layer)

structure FCompoundWrite (V : Type) where
  writeTree : FImmutableTree (FNode V)

namespace FCompoundWrite

variable {V : Type}

def emptyWrite : FCompoundWrite V := ⟨.initWithValue none⟩

def isEmpty (self : FCompoundWrite V) : Bool := self.writeTree.isEmpty

section Operations

variable (stringComparator : String → String → Ordering)

def addWrite (node : FNode V) (path : FPath) (self : FCompoundWrite V) :
    Except String (FCompoundWrite V) :=
  if path.isEmpty then .ok ⟨.initWithValue (some node)⟩
  else
    match FImmutableTree.findRootMostValueAndPath stringComparator path.segments self.writeTree with
    | some rootMost => do
        let relativePath ← FPath.relativePathFrom rootMost.1 path
        let value ← FNode.updateChild relativePath node rootMost.2
        let newWriteTree ←
          FImmutableTree.setValue stringComparator value rootMost.1.segments self.writeTree
        .ok ⟨newWriteTree⟩
    | none => do
        let newWriteTree ←
          FImmutableTree.setTree stringComparator (.initWithValue (some node)) path.segments
            self.writeTree
        .ok ⟨newWriteTree⟩

def addCompoundWrite (compoundWrite : FCompoundWrite V) (path : FPath) (self : FCompoundWrite V) :
    Except String (FCompoundWrite V) :=
  compoundWrite.writeTree.forEach.foldlM
    (fun newWrite found => newWrite.addWrite stringComparator found.2 (path.child found.1)) self

def removeWriteAtPath (path : FPath) (self : FCompoundWrite V) :
    Except String (FCompoundWrite V) :=
  if path.isEmpty then .ok emptyWrite
  else do
    let newWriteTree ←
      FImmutableTree.setTree stringComparator .empty path.segments self.writeTree
    .ok ⟨newWriteTree⟩

def completeNodeAtPath (path : FPath) (self : FCompoundWrite V) :
    Except String (Option (FNode V)) :=
  match FImmutableTree.findRootMostValueAndPath stringComparator path.segments self.writeTree with
  | some rootMost => do
      let relativePath ← FPath.relativePathFrom rootMost.1 path
      .ok (some (rootMost.2.getChild relativePath))
  | none => .ok none

def childCompoundWriteAtPath (path : FPath) (self : FCompoundWrite V) :
    Except String (FCompoundWrite V) :=
  if path.isEmpty then .ok self
  else do
    match ← self.completeNodeAtPath stringComparator path with
    | some shadowingNode => .ok ⟨.initWithValue (some shadowingNode)⟩
    | none => .ok ⟨FImmutableTree.subtreeAtPath stringComparator path.segments self.writeTree⟩

end Operations

def applySubtreeWrite (relativePath : FPath) :
    FImmutableTree (FNode V) → FNode V → Except String (FNode V)
  | .mk (some value) _, node => FNode.updateChild relativePath value node
  | .mk none children, node =>
      children.entries.attach.foldlM (fun blockNode entry =>
        applySubtreeWrite (relativePath.childFromString entry.1.1) entry.1.2 blockNode) node
termination_by subtreeWrite => sizeOf subtreeWrite
decreasing_by
  have hlt := FImmutableSortedDictionary.sizeOf_lt_of_mem entry.2
  rw [FImmutableTree.mk.sizeOf_spec]
  omega

def applyToNode (node : FNode V) (self : FCompoundWrite V) : Except String (FNode V) :=
  applySubtreeWrite FPath.empty self.writeTree node

/-- A node at a path as a layer of its leaves. -/
def layerAt (path : List String) (node : FNode V) : Layer String V :=
  ⟨path, fun place => FNode.leafAt place node⟩

def layer (write : FPath × FNode V) : Layer String V := layerAt write.1.segments write.2

/-- What the writes say is at a place. -/
def tells (self : FCompoundWrite V) (place : List String) : Option (Option V) :=
  (coverAt place self.writeTree).map fun found => FNode.leafAt found.1 found.2

def Sound (K : Set String) (self : FCompoundWrite V) : Prop :=
  FImmutableTree.Sound K FNode.Sound self.writeTree

/-- The keys of a place are told from those of a set. -/
def Told (K : Set String) (place : List String) : Prop :=
  ∀ key ∈ place, ∀ key' ∈ K, compareKey key key' = .eq → key = key'

variable {stringComparator : String → String → Ordering} {K : Set String} {node : FNode V}
  {path : FPath} {segments place : List String} {self compoundWrite : FCompoundWrite V}

theorem told_cons {key : String} :
    Told K (key :: place) ↔ (∀ key' ∈ K, compareKey key key' = .eq → key = key') ∧ Told K place :=
  List.forall_mem_cons

theorem full_layerAt (h : node.Sound) : (layerAt segments node).Full ↔ node.isEmpty = false := by
  constructor
  · rintro ⟨below, hvalue⟩
    by_contra hempty
    exact hvalue (FNode.leafAt_of_isEmpty h (by simpa using hempty) below)
  · intro hempty
    obtain ⟨below, value, hvalue⟩ := FNode.exists_leafAt h hempty
    exact ⟨below, fun hnone => by cases hvalue.symm.trans hnone⟩

section Places

theorem compareKey_eq_iff_of_told {key key' : String} (hkey' : key' ∈ K)
    (htold : ∀ key' ∈ K, compareKey key key' = .eq → key = key') :
    compareKey key key' = .eq ↔ key = key' :=
  ⟨htold key' hkey', fun heq => heq ▸ Std.ReflCmp.compare_self⟩

theorem relative_eq (hsegments : ∀ key ∈ segments, key ∈ K) (hplace : Told K place) :
    FNode.relative segments place =
      if segments <+: place then some (place.drop segments.length) else none := by
  induction segments generalizing place with
  | nil => simp [FNode.relative]
  | cons front rest ih =>
      cases place with
      | nil => simp [FNode.relative]
      | cons front' rest' =>
          obtain ⟨hfront, hrest⟩ := List.forall_mem_cons.mp hsegments
          obtain ⟨htold, hrest'⟩ := told_cons.mp hplace
          rw [FNode.relative, ih hrest hrest', List.length_cons, List.drop_succ_cons]
          simp only [List.cons_prefix_cons]
          by_cases heq : front' = front
          · rw [if_pos ((compareKey_eq_iff_of_told hfront htold).mpr heq)]
            exact if_congr (by simp [heq]) rfl rfl
          · rw [if_neg (mt (compareKey_eq_iff_of_told hfront htold).mp heq),
              if_neg fun h => heq h.1.symm]

theorem above_iff (hsegments : ∀ key ∈ segments, key ∈ K) (hplace : Told K place) :
    FNode.Above place segments ↔ place <+: segments := by
  induction place generalizing segments with
  | nil => simp [FNode.Above, FNode.relative]
  | cons front rest ih =>
      cases segments with
      | nil => simp [FNode.Above, FNode.relative]
      | cons front' rest' =>
          obtain ⟨hfront', hrest'⟩ := List.forall_mem_cons.mp hsegments
          obtain ⟨htold, hrest⟩ := told_cons.mp hplace
          rw [FNode.above_cons, List.cons_prefix_cons, ih hrest' hrest]
          refine and_congr ⟨fun heq => ?_, fun heq => heq ▸ Std.ReflCmp.compare_self⟩ Iff.rfl
          exact htold front' hfront' (Std.OrientedCmp.eq_symm heq)

/-- Putting a node at a path covers what is there with its layer. -/
theorem updated_eq (hnode : node.Sound) (hsegments : ∀ key ∈ segments, key ∈ K)
    (hplace : Told K place) (base : FNode V) :
    FNode.updated node segments base place =
      (layerAt segments node).covering (fun place => FNode.leafAt place base) place := by
  have hcond : (!node.isEmpty && (FNode.relative place segments).isSome) = true ↔
      (layerAt segments node).Full ∧ place <+: segments := by
    rw [Bool.and_eq_true, Bool.not_eq_true', full_layerAt hnode]
    exact and_congr Iff.rfl (above_iff hsegments hplace)
  rw [FNode.updated, relative_eq hsegments hplace]
  by_cases hbelow : segments <+: place
  · rw [if_pos hbelow, Layers.covering_below _ hbelow]
    rfl
  · rw [if_neg hbelow]
    dsimp only
    by_cases habove : (layerAt segments node).Full ∧ place <+: segments
    · rw [if_pos (hcond.mpr habove), Layers.covering_above _ hbelow habove]
    · rw [if_neg (mt hcond.mp habove), Layers.covering_apart _ hbelow habove]

/-- Every place has the leaf of one whose keys are told from those of the set. -/
theorem exists_told (hord : Ordinary stringComparator K) (place : List String) :
    ∃ place', Told K place' ∧
      ∀ {node : FNode V}, node.Sound → FNode.leafAt place node = FNode.leafAt place' node := by
  induction place with
  | nil => exact ⟨[], List.forall_mem_nil _, fun _ => rfl⟩
  | cons front rest ih =>
      obtain ⟨rest', htold, hsame⟩ := ih
      obtain ⟨front', hfront', heq⟩ : ∃ front',
          (∀ key' ∈ K, compareKey front' key' = .eq → front' = key') ∧
            compareKey front front' = .eq := by
        by_cases hK : ∃ key ∈ K, compareKey front key = .eq
        · obtain ⟨key, hkey, heq⟩ := hK
          exact ⟨key, hord.distinct key hkey, heq⟩
        · exact ⟨front, fun key hkey heq => absurd ⟨key, hkey, heq⟩ hK, Std.ReflCmp.compare_self⟩
      refine ⟨front' :: rest', told_cons.mpr ⟨hfront', htold⟩, fun hnode => ?_⟩
      rw [FNode.leafAt_cons, FNode.leafAt_cons, FNode.getImmediateChild_congr hnode heq,
        hsame (hnode.getImmediateChild front')]

end Places

section Writes

theorem sound_emptyWrite : Sound K (emptyWrite : FCompoundWrite V) :=
  FImmutableTree.sound_empty

@[simp] theorem tells_emptyWrite : tells (emptyWrite : FCompoundWrite V) place = none :=
  congrArg _ FImmutableTree.coverAt_empty

theorem Sound.value (hord : Ordinary stringComparator K) (h : Sound K self) {rest : List String}
    (hcover : coverAt place self.writeTree = some (rest, node)) : node.Sound := by
  obtain ⟨found, hfound, _, rfl⟩ := FImmutableTree.exists_mem_forEach hord h hcover
  exact (FImmutableTree.mem_forEach hord h hfound).1

/-- A write where none is above says what its layer does. -/
theorem tells_of_free {tree : FImmutableTree (FNode V)}
    (hfree : coverAt segments self.writeTree = none)
    (hplaces : ∀ place, coverAt place tree =
      if segments <+: place then
        coverAt (place.drop segments.length) (.initWithValue (some node))
      else coverAt place self.writeTree) (place : List String) :
    tells ⟨tree⟩ place = (layerAt segments node).onTop self.tells place := by
  rw [tells, hplaces]
  split
  · next hbelow =>
    rw [FImmutableTree.coverAt_initWithValue, Layers.onTop_below _ hbelow]
    rfl
  · next hnot =>
    have hbelow : ¬(layerAt segments node).path <+: place := hnot
    change self.tells place = _
    refine (Layers.onTop_apart hbelow fun habove => ?_).symm
    obtain ⟨below, rfl⟩ := habove
    cases hcover : coverAt place self.writeTree with
    | none => rw [tells, hcover, Option.map_none]
    | some found =>
        have happend := FImmutableTree.coverAt_append hcover below
        rw [hfree] at happend
        cases happend

/-- A write below another says what its layer does, once it is put in the node of
the other. -/
theorem tells_of_covered {tree : FImmutableTree (FNode V)}
    {root rest : List String} {value newValue : FNode V} (hnode : node.Sound)
    (hrest : ∀ key ∈ rest, key ∈ K) (hroot : coverAt root self.writeTree = some ([], value))
    (hleaf : ∀ place, FNode.leafAt place newValue = FNode.updated node rest value place)
    (hplaces : ∀ place, coverAt place tree =
      if root <+: place then some (place.drop root.length, newValue)
      else coverAt place self.writeTree) (hplace : Told K place) :
    tells ⟨tree⟩ place = (layerAt (root ++ rest) node).onTop self.tells place := by
  rw [tells, hplaces]
  split
  · next hbelow =>
    obtain ⟨below, rfl⟩ := hbelow
    have hbelow : Told K below := fun key hkey => hplace key (List.mem_append_right _ hkey)
    have htells : self.tells (root ++ below) = some (FNode.leafAt below value) := by
      rw [tells, FImmutableTree.coverAt_append hroot below]
      rfl
    rw [List.drop_left, Option.map_some, hleaf, updated_eq hnode hrest hbelow]
    exact (Layers.onTop_append htells).symm
  · next hnot =>
    have hbelow : ¬(layerAt (root ++ rest) node).path <+: place := fun hbelow =>
      hnot ((List.prefix_append root rest).trans hbelow)
    change self.tells place = _
    refine (Layers.onTop_apart hbelow fun habove => ?_).symm
    have hcases := List.prefix_or_prefix_of_prefix habove (List.prefix_append root rest)
    obtain ⟨below, rfl⟩ := hcases.resolve_right hnot
    cases hcover : coverAt place self.writeTree with
    | none => rw [tells, hcover, Option.map_none]
    | some found =>
        have happend := FImmutableTree.coverAt_append hcover below
        rw [hroot, Option.some.injEq, Prod.mk.injEq] at happend
        obtain ⟨-, rfl⟩ := List.append_eq_nil_iff.mp happend.1.symm
        exact absurd (by rw [List.append_nil]) hnot

/-- A write added is a layer on top of what the writes say. -/
theorem addWrite_eq (hord : Ordinary stringComparator K) (h : Sound K self) (hnode : node.Sound)
    (hpath : ∀ key ∈ path.segments, key ∈ K) :
    ∃ newWrite, addWrite stringComparator node path self = .ok newWrite ∧ Sound K newWrite ∧
      ∀ place, Told K place → newWrite.tells place = (layer (path, node)).onTop self.tells place := by
  have hvalue : FImmutableTree.Sound K FNode.Sound (.initWithValue (some node)) :=
    FImmutableTree.sound_initWithValue fun found hfound => by cases hfound; exact hnode
  rw [addWrite]
  by_cases hempty : path.isEmpty = true
  · have hnil : path.segments = [] := by rwa [FPath.isEmpty_eq, List.isEmpty_iff] at hempty
    refine ⟨_, if_pos hempty, hvalue, fun place _ => ?_⟩
    rw [tells, FImmutableTree.coverAt_initWithValue, layer, hnil, Layers.onTop_below _ List.nil_prefix]
    rfl
  · rw [if_neg hempty]
    obtain ⟨hnone, hsome⟩ := FImmutableTree.findRootMostValueAndPath_eq hord h hpath
    cases hcover : coverAt path.segments self.writeTree with
    | none =>
        obtain ⟨tree, htree, hsound, hplaces⟩ := FImmutableTree.setTree_eq hord h hvalue hpath
          fun rest value hrest => by rw [hcover] at hrest; cases hrest
        refine ⟨⟨tree⟩, ?_, hsound, fun place _ => tells_of_free hcover hplaces place⟩
        rw [hnone hcover]
        simp only [htree, bind, Except.bind]
    | some found =>
        obtain ⟨root, hroot, hsegments⟩ := hsome found.1 found.2 hcover
        obtain ⟨relative, hrelative, hrest⟩ := FPath.relativePathFrom_append hsegments.symm
        obtain ⟨path', hpath', hroot'⟩ := FImmutableTree.coverAt_split hcover
        obtain rfl := List.append_cancel_right (hpath'.trans hsegments.symm)
        obtain ⟨newValue, hnew, hsoundValue, hleaf⟩ :=
          FNode.updateChildAt_eq (h.value hord hcover) hnode relative.segments
        rw [← hsegments, List.forall_mem_append] at hpath
        obtain ⟨tree, htree, hsound, hplaces⟩ :=
          FImmutableTree.setValue_eq hord h hsoundValue hpath.1 hroot'
        refine ⟨⟨tree⟩, ?_, hsound, fun place hplace => ?_⟩
        · rw [hroot]
          simp only [hrelative, bind, Except.bind, FNode.updateChild, hnew, htree]
        · rw [layer, ← hsegments]
          exact tells_of_covered hnode hpath.2 hroot' (hrest ▸ hleaf) hplaces hplace

/-- Writes added one after another. -/
theorem foldlM_addWrite_eq (hord : Ordinary stringComparator K) {writes : List (FPath × FNode V)}
    (hwrites : ∀ write ∈ writes, write.2.Sound ∧ ∀ key ∈ write.1.segments, key ∈ K)
    (h : Sound K self) :
    ∃ newWrite, writes.foldlM (fun newWrite found =>
        addWrite stringComparator found.2 found.1 newWrite) self = .ok newWrite ∧
      Sound K newWrite ∧ ∀ place, Told K place →
        newWrite.tells place =
          (writes.map layer).foldl (fun said layer => layer.onTop said) self.tells place := by
  induction writes generalizing self with
  | nil => exact ⟨self, rfl, h, fun _ _ => rfl⟩
  | cons write writes ih =>
      obtain ⟨⟨hnode, hpath⟩, hrest⟩ := List.forall_mem_cons.mp hwrites
      obtain ⟨next, hnext, hsound, htells⟩ := addWrite_eq hord h hnode hpath
      obtain ⟨newWrite, hwritten, hsound', htells'⟩ := ih hrest hsound
      refine ⟨newWrite, ?_, hsound', fun place hplace => ?_⟩
      · rw [List.foldlM_cons, hnext]
        exact hwritten
      · rw [htells' place hplace, List.map_cons, List.foldl_cons]
        exact Layers.foldl_onTop_congr (htells place hplace)

end Writes

section Apply

theorem applySubtreeWrite_eq {subtreeWrite : FImmutableTree (FNode V)}
    (h : FImmutableTree.Sound K FNode.Sound subtreeWrite) (relativePath : FPath) (node : FNode V) :
    applySubtreeWrite relativePath subtreeWrite node =
      (subtreeWrite.forEachPathSoFar relativePath).foldlM
        (fun node found => FNode.updateChild found.1 found.2 node) node := by
  induction h generalizing relativePath node with
  | @mk value children _ _ _ _ hleaf ih =>
      rw [FImmutableTree.forEachPathSoFar_eq]
      cases value with
      | some value =>
          rw [hleaf rfl, applySubtreeWrite]
          simp
      | none =>
          rw [applySubtreeWrite, List.foldlM_subtype (g := fun blockNode entry =>
            applySubtreeWrite (relativePath.childFromString entry.1) entry.2 blockNode)
            fun _ _ _ => rfl, List.unattach_attach, Option.map_none, Option.toList_none,
            List.append_nil]
          exact Traverse.foldlM_flatMap fun entry hentry node => ih entry hentry _ node

/-- Nodes put at their paths one after another. -/
theorem foldlM_updateChild_eq {writes : List (FPath × FNode V)}
    (hwrites : ∀ write ∈ writes, write.2.Sound ∧ ∀ key ∈ write.1.segments, key ∈ K)
    (hnode : node.Sound) :
    ∃ newNode, writes.foldlM (fun node found => FNode.updateChild found.1 found.2 node) node =
        .ok newNode ∧ newNode.Sound ∧ ∀ place, Told K place →
      FNode.leafAt place newNode =
        Layers.stack (writes.map layer) (fun place => FNode.leafAt place node) place := by
  induction writes generalizing node with
  | nil => exact ⟨node, rfl, hnode, fun _ _ => rfl⟩
  | cons write writes ih =>
      obtain ⟨⟨hwritten, hpath⟩, hrest⟩ := List.forall_mem_cons.mp hwrites
      obtain ⟨next, hnext, hsound, hleaf⟩ :=
        FNode.updateChildAt_eq hnode hwritten write.1.segments
      obtain ⟨newNode, hnew, hsound', hleaf'⟩ := ih hrest hsound
      refine ⟨newNode, ?_, hsound', fun place hplace => ?_⟩
      · rw [List.foldlM_cons, FNode.updateChild, hnext]
        exact hnew
      · rw [hleaf' place hplace]
        refine Layers.stack_congr ?_
        dsimp only
        rw [hleaf, updated_eq hwritten hpath hplace]
        rfl

/-- The writes of the tree, which lie apart, say what it does. -/
theorem said_forEach (hord : Ordinary stringComparator K) (h : Sound K self) (place : List String) :
    Layers.said (self.writeTree.forEach.map layer) place = self.tells place := by
  rw [tells]
  cases hcover : coverAt place self.writeTree with
  | none =>
      rw [Option.map_none, ← Option.not_isSome_iff_eq_none, Layers.isSome_said]
      rintro ⟨above, habove, hbelow⟩
      obtain ⟨found, hfound, rfl⟩ := List.mem_map.mp habove
      obtain ⟨below, rfl⟩ := hbelow
      have hroot := (FImmutableTree.mem_forEach hord h hfound).2.2
      have happend := FImmutableTree.coverAt_append hroot below
      cases hcover.symm.trans happend
  | some cover =>
      obtain ⟨found, hfound, rfl, hvalue⟩ := FImmutableTree.exists_mem_forEach hord h hcover
      have hroot := (FImmutableTree.mem_forEach hord h hfound).2.2
      have hsaid := Layers.said_of_mem (List.mem_map_of_mem (f := layer) hfound)
        (List.prefix_append found.1.segments cover.1) ?_
      · rw [hsaid, Option.map_some, ← hvalue]
        simp [layer, layerAt]
      · intro other hother hcases
        obtain ⟨found', hfound', rfl⟩ := List.mem_map.mp hother
        have hroot' := (FImmutableTree.mem_forEach hord h hfound').2.2
        obtain ⟨hsame, hsame'⟩ :
            found'.1.segments = found.1.segments ∧ found'.2 = found.2 := by
          rcases hcases with hbefore | hbefore
          · exact (FImmutableTree.coverAt_unique hroot hroot' hbefore).imp Eq.symm Eq.symm
          · exact FImmutableTree.coverAt_unique hroot' hroot hbefore
        rw [layer, layer, hsame, hsame']

/-- The writes are applied: where they say nothing, the node is as it was. -/
theorem applyToNode_eq (hord : Ordinary stringComparator K) (h : Sound K self) (hnode : node.Sound)
    (hclear : Layers.Clear (fun place => FNode.leafAt place node)
      (self.writeTree.forEach.map layer)) :
    ∃ newNode, applyToNode node self = .ok newNode ∧ newNode.Sound ∧ ∀ place, Told K place →
      FNode.leafAt place newNode = (self.tells place).getD (FNode.leafAt place node) := by
  obtain ⟨newNode, hnew, hsound, hleaf⟩ :=
    foldlM_updateChild_eq
      (fun write hwrite => (FImmutableTree.mem_forEach hord h hwrite).imp_right And.left) hnode
  refine ⟨newNode, (applySubtreeWrite_eq h FPath.empty node).trans hnew, hsound,
    fun place hplace => ?_⟩
  rw [hleaf place hplace, Layers.stack_eq hclear, said_forEach hord h]

/-- No leaf of the node is on the way to the path. -/
def ClearOf (node : FNode V) (segments : List String) : Prop :=
  ∀ place, place <+: segments → place ≠ segments → FNode.leafAt place node = none

/-- Each write of the tree is at the path of one that was added, and so nothing
is on the way to it. -/
theorem clear_forEach (hord : Ordinary stringComparator K) {writes : List (FPath × FNode V)}
    (hwrites : ∀ write ∈ writes, ∀ key ∈ write.1.segments, key ∈ K) (h : Sound K self)
    (htells : ∀ place, Told K place → self.tells place = Layers.said (writes.map layer) place)
    (hclear : ∀ write ∈ writes, ClearOf node write.1.segments) :
    Layers.Clear (fun place => FNode.leafAt place node) (self.writeTree.forEach.map layer) := by
  intro other hother place hplace hne
  obtain ⟨found, hfound, rfl⟩ := List.mem_map.mp hother
  obtain ⟨_, hkeys, hcover⟩ := FImmutableTree.mem_forEach hord h hfound
  have htold {segments : List String} (hsegments : ∀ key ∈ segments, key ∈ K) : Told K segments :=
    fun key hkey => hord.distinct key (hsegments key hkey)
  have hsaid : (Layers.said (writes.map layer) found.1.segments).isSome := by
    rw [← htells _ (htold hkeys), tells, hcover]
    rfl
  obtain ⟨above, habove, below, hbelow⟩ := Layers.isSome_said.mp hsaid
  obtain ⟨write, hwrite, rfl⟩ := List.mem_map.mp habove
  have hsaid' : (self.tells write.1.segments).isSome := by
    rw [htells _ (htold (hwrites write hwrite)), Layers.isSome_said]
    exact ⟨layer write, habove, List.prefix_rfl⟩
  rw [tells, Option.isSome_map] at hsaid'
  obtain ⟨cover, hcover'⟩ := Option.isSome_iff_exists.mp hsaid'
  have happend := FImmutableTree.coverAt_append hcover' below
  change write.1.segments ++ below = _ at hbelow
  rw [hbelow, hcover, Option.some.injEq, Prod.mk.injEq] at happend
  obtain ⟨-, rfl⟩ := List.append_eq_nil_iff.mp happend.1.symm
  rw [List.append_nil] at hbelow
  exact hclear write hwrite place (hbelow ▸ hplace) (hbelow ▸ hne)

/-- Writes kept as one and then applied do what they do one after another, to any
node that has no leaf on the way to one of them. -/
theorem applyToNode_addWrite (hkeys : ChildKeys stringComparator K)
    {writes : List (FPath × FNode V)}
    (hwrites : ∀ write ∈ writes, write.2.Sound ∧ ∀ key ∈ write.1.segments, key ∈ K)
    (hnode : node.Sound) (hclear : ∀ write ∈ writes, ClearOf node write.1.segments) :
    ∃ compoundWrite applied sequential,
      writes.foldlM (fun compoundWrite write =>
        addWrite stringComparator write.2 write.1 compoundWrite) emptyWrite = .ok compoundWrite ∧
      applyToNode node compoundWrite = .ok applied ∧
      writes.foldlM (fun node write => FNode.updateChild write.1 write.2 node) node =
        .ok sequential ∧
      applied.Sound ∧ ∀ place, FNode.leafAt place applied = FNode.leafAt place sequential := by
  have hord := hkeys.toOrdinary
  obtain ⟨compoundWrite, hadded, hsound, htells⟩ :=
    foldlM_addWrite_eq hord hwrites (sound_emptyWrite (V := V))
  have hsaid : ∀ place, Told K place →
      compoundWrite.tells place = Layers.said (writes.map layer) place := fun place hplace =>
    (htells place hplace).trans (Layers.foldl_onTop_congr tells_emptyWrite)
  obtain ⟨applied, happlied, hsoundApplied, hleaf⟩ := applyToNode_eq hord hsound hnode
    (clear_forEach hord (fun write hwrite => (hwrites write hwrite).2) hsound hsaid hclear)
  obtain ⟨sequential, hsequential, hsoundSequential, hleaf'⟩ := foldlM_updateChild_eq hwrites hnode
  refine ⟨compoundWrite, applied, sequential, hadded, happlied, hsequential, hsoundApplied,
    fun place => ?_⟩
  have hclear' : Layers.Clear (fun place => FNode.leafAt place node) (writes.map layer) := by
    intro other hother
    obtain ⟨write, hwrite, rfl⟩ := List.mem_map.mp hother
    exact hclear write hwrite
  obtain ⟨place', hplace', hsame⟩ := exists_told (V := V) hord place
  rw [hsame hsoundApplied, hsame hsoundSequential, hleaf place' hplace', hleaf' place' hplace',
    Layers.stack_eq hclear', hsaid place' hplace']

/-- The keys of the runs that are worked out below. -/
def lampKeys : List String := ["lamp", "price", "name"]

theorem ordinary_lampKeys : Ordinary FUtilities.literalOrder {key | key ∈ lampKeys} where
  literal _ _ _ _ := rfl
  distinct := by
    change ∀ a ∈ lampKeys, ∀ b ∈ lampKeys, compareKey a b = .eq → a = b
    decide
  segment := by
    change ∀ key ∈ lampKeys, key ≠ "" ∧ '/' ∉ key.toList
    decide

theorem childKeys_lampKeys : ChildKeys FUtilities.literalOrder {key | key ∈ lampKeys} :=
  { ordinary_lampKeys with
    notPriority := by
      change ".priority" ∉ lampKeys
      decide }

/-- A price is put below a lamp, then a lamp without one, and its name. -/
theorem applyToNode_addWrite_of_lamp :
    ∃ (compoundWrite : FCompoundWrite Nat) (applied sequential : FNode Nat),
      [(FPath.initWith "lamp/price", .leaf 7), (FPath.initWith "lamp", .emptyNode),
        (FPath.initWith "lamp/name", .leaf 3)].foldlM (fun compoundWrite write =>
          addWrite FUtilities.literalOrder write.2 write.1 compoundWrite) emptyWrite =
        .ok compoundWrite ∧
      applyToNode .emptyNode compoundWrite = .ok applied ∧
      [(FPath.initWith "lamp/price", .leaf 7), (FPath.initWith "lamp", .emptyNode),
        (FPath.initWith "lamp/name", .leaf 3)].foldlM (fun node write =>
          FNode.updateChild write.1 write.2 node) .emptyNode = .ok sequential ∧
      applied.Sound ∧ ∀ place, FNode.leafAt place applied = FNode.leafAt place sequential := by
  refine applyToNode_addWrite childKeys_lampKeys ?_ FNode.sound_emptyNode
    fun _ _ place _ _ => FNode.leafAt_emptyNode place
  refine List.forall_mem_cons.mpr ⟨⟨.leaf 7, ?_⟩, List.forall_mem_cons.mpr
    ⟨⟨FNode.sound_emptyNode, ?_⟩, List.forall_mem_singleton.mpr ⟨.leaf 3, ?_⟩⟩⟩
  · change ∀ key ∈ (FPath.initWith "lamp/price").segments, key ∈ lampKeys
    decide
  · change ∀ key ∈ (FPath.initWith "lamp").segments, key ∈ lampKeys
    decide
  · change ∀ key ∈ (FPath.initWith "lamp/name").segments, key ∈ lampKeys
    decide

end Apply

end FCompoundWrite

end FirebaseDatabase
