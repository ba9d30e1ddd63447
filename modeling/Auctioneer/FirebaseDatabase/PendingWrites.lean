import Auctioneer.FirebaseDatabase.WriteTree

/-!
The visible writes tell of the pending ones, one after another, when a write is
added and when the oldest is taken out; and what is shown over a copy of the
server's data is that data with the writes that the visible ones tell of.
-/

namespace FirebaseDatabase

open FImmutableTree (coverAt)
open FCompoundWrite (layer Told ClearOf)

variable {V : Type} {stringComparator : String → String → Ordering} {K : Set String}

namespace FNode

variable {node : FNode V}

theorem leafAt_append (segments place : List String) (node : FNode V) :
    leafAt (segments ++ place) node = leafAt place (getChildAt segments node) := by
  induction segments generalizing node with
  | nil => rfl
  | cons front rest ih =>
      rw [List.cons_append, leafAt_cons, ih]
      cases node with
      | leaf value =>
          rw [← ih]
          simp [getImmediateChild, getChildAt]
      | children => rfl

theorem Sound.getChildAt (h : Sound node) (segments : List String) :
    Sound (getChildAt segments node) := by
  induction segments generalizing node with
  | nil => exact h
  | cons front rest ih =>
      cases node with
      | leaf value => exact sound_emptyNode
      | children someChildren => exact ih (h.getImmediateChild front)

end FNode

namespace FCompoundWrite

variable {self : FCompoundWrite V} {path : FPath}

/-- A first write is the only one. -/
theorem addWrite_emptyWrite (hord : Ordinary stringComparator K) {node : FNode V}
    (hnode : node.Sound) (hpath : ∀ key ∈ path.segments, key ∈ K) :
    ∃ newWrite, addWrite stringComparator node path emptyWrite = .ok newWrite ∧
      Sound K newWrite ∧ newWrite.isEmpty = false ∧
      ∀ found ∈ newWrite.writeTree.forEach,
        found.1.segments = path.segments ∧ found.2 = node := by
  have hvalue : FImmutableTree.Sound K FNode.Sound (.initWithValue (some node)) :=
    FImmutableTree.sound_initWithValue fun found hfound => by cases hfound; exact hnode
  have hfree : ∀ rest value, coverAt path.segments (.empty : FImmutableTree (FNode V)) =
      some (rest, value) → rest = [] := fun rest value hcover => by
    rw [FImmutableTree.coverAt_empty] at hcover
    cases hcover
  obtain ⟨tree, htree, hsound, hcover⟩ := FImmutableTree.setTree_eq hord
    FImmutableTree.sound_empty hvalue hpath hfree
  refine ⟨⟨tree⟩, ?_, hsound, ?_, fun found hfound => ?_⟩
  · have hroot : FImmutableTree.findRootMostValueAndPath stringComparator path.segments
        (emptyWrite (V := V)).writeTree = none :=
      (FImmutableTree.findRootMostValueAndPath_eq hord sound_emptyWrite hpath).1
        FImmutableTree.coverAt_empty
    rw [addWrite]
    by_cases hempty : path.isEmpty = true
    · have hnil : path.segments = [] := by rwa [FPath.isEmpty_eq, List.isEmpty_iff] at hempty
      rw [hnil, FImmutableTree.setTree] at htree
      rw [if_pos hempty, Except.ok.inj htree]
    · have hset : FImmutableTree.setTree stringComparator (.initWithValue (some node))
          path.segments (emptyWrite (V := V)).writeTree = .ok tree := htree
      rw [if_neg hempty, hroot]
      simp only [hset, bind, Except.bind]
  · by_contra hne
    have hnothing := FImmutableTree.coverAt_of_isEmpty hsound (Bool.not_eq_false _ ▸ hne)
      path.segments
    rw [hcover, if_pos (List.prefix_refl _), FImmutableTree.coverAt_initWithValue] at hnothing
    cases hnothing
  · obtain ⟨_, _, hfoundCover⟩ := FImmutableTree.mem_forEach hord hsound hfound
    rw [hcover, FImmutableTree.coverAt_empty] at hfoundCover
    split at hfoundCover
    · next hbefore =>
        obtain ⟨below, hbelow⟩ := hbefore
        rw [← hbelow, List.drop_left, FImmutableTree.coverAt_initWithValue] at hfoundCover
        obtain ⟨rfl, hvalue⟩ := Prod.mk.inj (Option.some.inj hfoundCover)
        exact ⟨by rw [← hbelow, List.append_nil], hvalue.symm⟩
    · cases hfoundCover

theorem removeWriteAtPath_eq (hord : Ordinary stringComparator K) (h : Sound K self)
    (hpath : ∀ key ∈ path.segments, key ∈ K)
    (hfree : ∀ rest value, coverAt path.segments self.writeTree = some (rest, value) → rest = []) :
    ∃ newWrite, removeWriteAtPath stringComparator path self = .ok newWrite ∧ Sound K newWrite ∧
      ∀ place, coverAt place newWrite.writeTree =
        if path.segments <+: place then none else coverAt place self.writeTree := by
  rw [removeWriteAtPath]
  by_cases hempty : path.isEmpty = true
  · have hnil : path.segments = [] := by rwa [FPath.isEmpty_eq, List.isEmpty_iff] at hempty
    refine ⟨_, if_pos hempty, sound_emptyWrite, fun place => ?_⟩
    rw [hnil, if_pos List.nil_prefix]
    exact FImmutableTree.coverAt_empty
  · obtain ⟨tree, htree, hsound, hplaces⟩ :=
      FImmutableTree.setTree_eq hord h FImmutableTree.sound_empty hpath hfree
    refine ⟨⟨tree⟩, ?_, hsound, fun place => ?_⟩
    · rw [if_neg hempty]
      simp only [htree, bind, Except.bind]
    · change coverAt place tree = _
      rw [hplaces, FImmutableTree.coverAt_empty]

/-- A write at or above the places of all that is told leaves nothing. -/
theorem removeWriteAtPath_all (hord : Ordinary stringComparator K) (h : Sound K self)
    (hpath : ∀ key ∈ path.segments, key ∈ K)
    (htold : ∀ place, Told K place → (self.tells place).isSome → path.segments <+: place) :
    ∃ newWrite, removeWriteAtPath stringComparator path self = .ok newWrite ∧ Sound K newWrite ∧
      ∀ place, Told K place → newWrite.tells place = none := by
  have hfree : ∀ rest value,
      coverAt path.segments self.writeTree = some (rest, value) → rest = [] := by
    intro rest value hcover
    obtain ⟨root, hroot, hrootCover⟩ := FImmutableTree.coverAt_split hcover
    rw [← hroot, List.forall_mem_append] at hpath
    have hbefore : path.segments <+: root := by
      refine htold root (fun key hkey => hord.distinct key (hpath.1 key hkey)) ?_
      rw [tells, hrootCover]
      rfl
    have hle := hbefore.length_le
    rw [← hroot, List.length_append] at hle
    exact List.length_eq_zero_iff.mp (by omega)
  obtain ⟨newWrite, hremoved, hsound, hcover⟩ := removeWriteAtPath_eq hord h hpath hfree
  refine ⟨newWrite, hremoved, hsound, fun place hplace => ?_⟩
  rw [tells, hcover]
  split
  · rfl
  · next hnot => exact Option.not_isSome_iff_eq_none.mp (mt (htold place hplace) hnot)

/-- Writes with none above them are taken out one after another. -/
theorem foldlM_removeWriteAtPath_eq (hord : Ordinary stringComparator K) {paths : List FPath}
    (hpaths : ∀ path ∈ paths, ∀ key ∈ path.segments, key ∈ K) (h : Sound K self)
    (hfree : ∀ path ∈ paths, ∀ rest value,
      coverAt path.segments self.writeTree = some (rest, value) → rest = []) :
    ∃ newWrite, paths.foldlM (fun newWrite path =>
        removeWriteAtPath stringComparator path newWrite) self = .ok newWrite ∧
      Sound K newWrite ∧ ∀ place, newWrite.tells place =
        if ∃ path ∈ paths, path.segments <+: place then none else self.tells place := by
  induction paths generalizing self with
  | nil => exact ⟨self, rfl, h, fun place => by simp⟩
  | cons path paths ih =>
      obtain ⟨hpath, hrest⟩ := List.forall_mem_cons.mp hpaths
      obtain ⟨hfree, hfrees⟩ := List.forall_mem_cons.mp hfree
      obtain ⟨next, hnext, hsound, hcover⟩ := removeWriteAtPath_eq hord h hpath hfree
      obtain ⟨newWrite, hwritten, hsound', htells⟩ := ih hrest hsound
        fun other hother rest value hvalue => by
          rw [hcover] at hvalue
          split at hvalue
          · cases hvalue
          · exact hfrees other hother rest value hvalue
      refine ⟨newWrite, ?_, hsound', fun place => ?_⟩
      · rw [List.foldlM_cons, hnext]
        exact hwritten
      · rw [htells, tells, hcover]
        simp only [List.exists_mem_cons_iff]
        by_cases hbelow : path.segments <+: place
        · simp [hbelow]
        · simp [hbelow, tells]

theorem completeNodeAtPath_eq (hord : Ordinary stringComparator K) (h : Sound K self)
    (hpath : ∀ key ∈ path.segments, key ∈ K) :
    (coverAt path.segments self.writeTree = none →
      self.completeNodeAtPath stringComparator path = .ok none) ∧
    ∀ rest value, coverAt path.segments self.writeTree = some (rest, value) →
      self.completeNodeAtPath stringComparator path = .ok (some (FNode.getChildAt rest value)) := by
  obtain ⟨hnone, hsome⟩ := FImmutableTree.findRootMostValueAndPath_eq hord h hpath
  refine ⟨fun hcover => by rw [completeNodeAtPath, hnone hcover], fun rest value hcover => ?_⟩
  obtain ⟨root, hroot, hsegments⟩ := hsome rest value hcover
  obtain ⟨relative, hrelative, rfl⟩ := FPath.relativePathFrom_append hsegments.symm
  rw [completeNodeAtPath, hroot]
  simp only [hrelative, bind, Except.bind]
  rfl

theorem childCompoundWriteAtPath_eq (hord : Ordinary stringComparator K) (h : Sound K self)
    (hpath : ∀ key ∈ path.segments, key ∈ K)
    (hnone : coverAt path.segments self.writeTree = none) :
    ∃ subMerge, self.childCompoundWriteAtPath stringComparator path = .ok subMerge ∧
      Sound K subMerge ∧ ∀ place,
        coverAt place subMerge.writeTree = coverAt (path.segments ++ place) self.writeTree := by
  rw [childCompoundWriteAtPath]
  by_cases hempty : path.isEmpty = true
  · have hnil : path.segments = [] := by rwa [FPath.isEmpty_eq, List.isEmpty_iff] at hempty
    exact ⟨self, if_pos hempty, h, fun place => by rw [hnil, List.nil_append]⟩
  · obtain ⟨hsound, hcover⟩ := FImmutableTree.subtreeAtPath_eq hord h hpath hnone
    refine ⟨_, ?_, hsound, hcover⟩
    rw [if_neg hempty, (completeNodeAtPath_eq hord h hpath).1 hnone]
    rfl

/-- What is clear on the way to the writes is so below a path. -/
theorem clear_child (hord : Ordinary stringComparator K) (h : Sound K self)
    {subMerge : FCompoundWrite V} (hsub : Sound K subMerge)
    (hcover : ∀ place,
      coverAt place subMerge.writeTree = coverAt (path.segments ++ place) self.writeTree)
    {node : FNode V}
    (hclear : Layers.Clear (fun place => FNode.leafAt place node)
      (self.writeTree.forEach.map layer)) :
    Layers.Clear (fun place => FNode.leafAt place (node.getChild path))
      (subMerge.writeTree.forEach.map layer) := by
  intro other hother place hplace hne
  obtain ⟨found, hfound, rfl⟩ := List.mem_map.mp hother
  obtain ⟨_, _, hfoundCover⟩ := FImmutableTree.mem_forEach hord hsub hfound
  rw [hcover] at hfoundCover
  obtain ⟨found', hfound', hsegments, _⟩ := FImmutableTree.exists_mem_forEach hord h hfoundCover
  rw [List.append_nil] at hsegments
  have hnothing := hclear (layer found') (List.mem_map_of_mem hfound') (path.segments ++ place)
  change _ <+: found'.1.segments → _ ≠ found'.1.segments → _ at hnothing
  rw [hsegments, List.prefix_append_right_inj] at hnothing
  dsimp only
  rw [FNode.getChild, ← FNode.leafAt_append]
  exact hnothing hplace fun heq => hne (List.append_cancel_left heq)

end FCompoundWrite

namespace FWriteRecord

variable {record : FWriteRecord V} {path : FPath}

/-- A visible write of sound nodes. -/
structure Valid (K : Set String) (record : FWriteRecord V) : Prop where
  visible : record.visible = true
  path : ∀ key ∈ record.path.segments, key ∈ K
  overwrite : ∀ overwrite, record.write = .overwrite overwrite → overwrite.Sound
  merge : ∀ merge, record.write = .merge merge → merge.Sound K

theorem valid_overwrite {node : FNode V} (hpath : ∀ key ∈ path.segments, key ∈ K)
    (hnode : node.Sound) (writeId : ℤ) : Valid K ⟨path, .overwrite node, writeId, true⟩ where
  visible := rfl
  path := hpath
  overwrite _ heq := by
    cases heq
    exact hnode
  merge _ heq := by cases heq

theorem valid_merge {nodes : FCompoundWrite V} (hpath : ∀ key ∈ path.segments, key ∈ K)
    (hnodes : nodes.Sound K) (writeId : ℤ) : Valid K ⟨path, .merge nodes, writeId, true⟩ where
  visible := rfl
  path := hpath
  overwrite _ heq := by cases heq
  merge _ heq := by
    cases heq
    exact hnodes

/-- The record writes below the path of an earlier one, from above it. -/
def Straddles (record earlier : FWriteRecord V) : Prop :=
  ¬earlier.path.segments <+: record.path.segments ∧
    ∃ write ∈ record.writes, earlier.path.segments <+: write.1.segments ∧
      write.1.segments ≠ earlier.path.segments

theorem Valid.writes (hord : Ordinary stringComparator K) (h : record.Valid K)
    {write : FPath × FNode V} (hwrite : write ∈ record.writes) :
    (write.2.Sound ∧ ∀ key ∈ write.1.segments, key ∈ K) ∧
      record.path.segments <+: write.1.segments := by
  rw [FWriteRecord.writes] at hwrite
  cases hkind : record.write with
  | overwrite overwrite =>
      rw [hkind] at hwrite
      obtain rfl := List.mem_singleton.mp hwrite
      exact ⟨⟨h.overwrite overwrite hkind, h.path⟩, List.prefix_refl _⟩
  | merge merge =>
      rw [hkind] at hwrite
      obtain ⟨found, hfound, rfl⟩ := List.mem_map.mp hwrite
      obtain ⟨hnode, hkeys, _⟩ := FImmutableTree.mem_forEach hord (h.merge merge hkind) hfound
      rw [FPath.segments_child]
      exact ⟨⟨hnode, List.forall_mem_append.mpr ⟨h.path, hkeys⟩⟩, List.prefix_append _ _⟩

/-- No write of a record is below another. -/
theorem Valid.eq_of_above (hord : Ordinary stringComparator K) (h : record.Valid K)
    {write other : FPath × FNode V} (hwrite : write ∈ record.writes)
    (hother : other ∈ record.writes) (hbefore : write.1.segments <+: other.1.segments) :
    write.1.segments = other.1.segments := by
  rw [FWriteRecord.writes] at hwrite hother
  cases hkind : record.write with
  | overwrite overwrite =>
      rw [hkind] at hwrite hother
      rw [List.mem_singleton.mp hwrite, List.mem_singleton.mp hother]
  | merge merge =>
      rw [hkind] at hwrite hother
      obtain ⟨found, hfound, rfl⟩ := List.mem_map.mp hwrite
      obtain ⟨found', hfound', rfl⟩ := List.mem_map.mp hother
      obtain ⟨_, _, hcover⟩ := FImmutableTree.mem_forEach hord (h.merge merge hkind) hfound
      obtain ⟨_, _, hcover'⟩ := FImmutableTree.mem_forEach hord (h.merge merge hkind) hfound'
      rw [FPath.segments_child, FPath.segments_child, List.prefix_append_right_inj] at hbefore
      rw [FPath.segments_child, FPath.segments_child,
        (FImmutableTree.coverAt_unique hcover hcover' hbefore).1]

theorem containsPath_iff :
    record.containsPath path = true ↔
      ∃ write ∈ record.writes, write.1.segments <+: path.segments := by
  rw [containsPath, FWriteRecord.writes]
  cases record.write with
  | overwrite overwrite => simp [FPath.contains_iff]
  | merge merge =>
      dsimp only
      rw [List.any_eq_true]
      simp only [FPath.contains_iff, List.mem_map]
      constructor
      · rintro ⟨found, hfound, hbefore⟩
        exact ⟨_, ⟨found, hfound, rfl⟩, hbefore⟩
      · rintro ⟨_, ⟨found, hfound, rfl⟩, hbefore⟩
        exact ⟨found, hfound, hbefore⟩

end FWriteRecord

namespace FWriteTree

variable {writeToRemove : FWriteRecord V} {index : ℕ} {overlaps : Bool}
  {list : List (FWriteRecord V × ℕ)} {self : FWriteTree V}

theorem scanWrites_false :
    scanWrites writeToRemove index list false overlaps = (false, overlaps) := by
  cases list <;> simp [scanWrites]

/-- If the write is found to be shadowed, a later record contains it, and if it
is found to be neither that nor to overlap, it is neither. -/
theorem scanWrites_spec (writeToRemove : FWriteRecord V) (index : ℕ)
    (hvisible : ∀ entry ∈ list, entry.1.visible = true)
    (hindex : ∀ entry ∈ list, index ≤ entry.2) (overlaps : Bool) :
    ((scanWrites writeToRemove index list true overlaps).1 = false →
      ∃ entry ∈ list, entry.1.containsPath writeToRemove.path = true) ∧
    (scanWrites writeToRemove index list true overlaps = (true, false) →
      overlaps = false ∧ ∀ entry ∈ list, entry.1.containsPath writeToRemove.path = false ∧
        writeToRemove.path.contains entry.1.path = false) := by
  induction list generalizing overlaps with
  | nil =>
      refine ⟨fun h => by simp [scanWrites] at h, fun h => ⟨?_, List.forall_mem_nil _⟩⟩
      simpa [scanWrites] using h
  | cons entry rest ih =>
      obtain ⟨hentry, hrest⟩ := List.forall_mem_cons.mp hvisible
      obtain ⟨hle, hindices⟩ := List.forall_mem_cons.mp hindex
      obtain ⟨currentWrite, i⟩ := entry
      dsimp only at hentry hle
      rw [scanWrites]
      simp only [hentry, hle, decide_true, Bool.true_and, Bool.not_true, Bool.false_eq_true,
        if_false, if_true, List.exists_mem_cons_iff, List.forall_mem_cons]
      cases hcontains : currentWrite.containsPath writeToRemove.path with
      | true => simp [scanWrites_false]
      | false =>
          cases hover : writeToRemove.path.contains currentWrite.path with
          | true =>
              obtain ⟨hshadowed, hfree⟩ := ih hrest hindices true
              exact ⟨fun h => .inr (hshadowed h), fun h => (by cases (hfree h).1)⟩
          | false =>
              obtain ⟨hshadowed, hfree⟩ := ih hrest hindices overlaps
              exact ⟨fun h => .inr (hshadowed h), fun h =>
                ⟨(hfree h).1, ⟨rfl, rfl⟩, (hfree h).2⟩⟩

/-- Layering a record at the root adds its writes. -/
theorem layerRecord_eq (record : FWriteRecord V) (compoundWrite : FCompoundWrite V) :
    layerRecord stringComparator FPath.empty compoundWrite record =
      record.writes.foldlM (fun compoundWrite write =>
        FCompoundWrite.addWrite stringComparator write.2 write.1 compoundWrite) compoundWrite := by
  have hcontains : FPath.empty.contains record.path = true := by
    rw [FPath.contains_iff, FPath.segments_empty]
    exact List.nil_prefix
  rw [layerRecord, if_pos hcontains, FPath.relativePathFrom_nil FPath.segments_empty,
    FWriteRecord.writes]
  simp only [bind, Except.bind]
  cases record.write with
  | overwrite overwrite => simp
  | merge merge => simp [FCompoundWrite.addCompoundWrite, List.foldlM_map]

theorem layerTreeFromWrites_eq (writes : List (FWriteRecord V)) :
    layerTreeFromWrites stringComparator writes (fun _ => true) FPath.empty =
      (writes.flatMap FWriteRecord.writes).foldlM (fun compoundWrite write =>
        FCompoundWrite.addWrite stringComparator write.2 write.1 compoundWrite) .emptyWrite := by
  rw [layerTreeFromWrites, List.filter_true]
  exact Traverse.foldlM_flatMap fun record _ compoundWrite => layerRecord_eq record compoundWrite

theorem removeVisible_eq (visibleWrites : FCompoundWrite V) :
    removeVisible stringComparator writeToRemove visibleWrites =
      (writeToRemove.writes.map Prod.fst).foldlM (fun visibleWrites path =>
        FCompoundWrite.removeWriteAtPath stringComparator path visibleWrites) visibleWrites := by
  rw [removeVisible, FWriteRecord.writes]
  cases writeToRemove.write with
  | overwrite overwrite => simp
  | merge merge => simp [List.foldlM_map]

/-- The layers of the pending writes. -/
def layers (records : List (FWriteRecord V)) : List (Layers.Layer String V) :=
  (records.flatMap FWriteRecord.writes).map layer

theorem layers_cons (record : FWriteRecord V) (records : List (FWriteRecord V)) :
    layers (record :: records) = record.writes.map layer ++ layers records := by
  rw [layers, List.flatMap_cons, List.map_append]
  rfl

theorem layers_concat (records : List (FWriteRecord V)) (record : FWriteRecord V) :
    layers (records ++ [record]) = layers records ++ record.writes.map layer := by
  rw [layers, List.flatMap_append, List.map_append, List.flatMap_singleton]
  rfl

theorem mem_layers {records : List (FWriteRecord V)} {other : Layers.Layer String V} :
    other ∈ layers records ↔ ∃ record ∈ records, ∃ write ∈ record.writes, layer write = other := by
  simp only [layers, List.mem_map, List.mem_flatMap]
  exact ⟨fun ⟨write, ⟨record, hrecord, hwrite⟩, heq⟩ => ⟨record, hrecord, write, hwrite, heq⟩,
    fun ⟨record, hrecord, write, hwrite, heq⟩ => ⟨write, ⟨record, hrecord, hwrite⟩, heq⟩⟩

/-- The visible writes say what the pending ones do, one after another. -/
structure Sound (K : Set String) (tree : FWriteTree V) : Prop where
  visibleWrites : tree.visibleWrites.Sound K
  tells : ∀ place, Told K place →
    tree.visibleWrites.tells place = Layers.said (layers tree.allWrites) place
  records : ∀ record ∈ tree.allWrites, record.Valid K

theorem sound_init : Sound K (init : FWriteTree V) where
  visibleWrites := FCompoundWrite.sound_emptyWrite
  tells _ _ := FCompoundWrite.tells_emptyWrite
  records := List.forall_mem_nil _

theorem valid_writes (hord : Ordinary stringComparator K) {records : List (FWriteRecord V)}
    (h : ∀ record ∈ records, record.Valid K) :
    ∀ write ∈ records.flatMap FWriteRecord.writes,
      write.2.Sound ∧ ∀ key ∈ write.1.segments, key ∈ K := by
  intro write hwrite
  obtain ⟨record, hrecord, hwrite⟩ := List.mem_flatMap.mp hwrite
  exact ((h record hrecord).writes hord hwrite).1

/-- A record on top of the others: its writes are added. -/
theorem Sound.add (hord : Ordinary stringComparator K) (h : Sound K self)
    {record : FWriteRecord V} (hrecord : record.Valid K) (lastWriteId : ℤ) :
    ∃ visibleWrites, record.writes.foldlM (fun compoundWrite write =>
        FCompoundWrite.addWrite stringComparator write.2 write.1 compoundWrite)
          self.visibleWrites = .ok visibleWrites ∧
      Sound K { visibleWrites, allWrites := self.allWrites ++ [record], lastWriteId } := by
  obtain ⟨visibleWrites, hadded, hsound, htells⟩ := FCompoundWrite.foldlM_addWrite_eq hord
    (fun write hwrite => (hrecord.writes hord hwrite).1) h.visibleWrites
  refine ⟨visibleWrites, hadded, hsound, fun place hplace => ?_, ?_⟩
  · rw [htells place hplace, layers_concat, Layers.said_append]
    exact Layers.foldl_onTop_congr (h.tells place hplace)
  · exact List.forall_mem_append.mpr ⟨h.records, List.forall_mem_singleton.mpr hrecord⟩

/-- The writes of a record that overlaps with no later one are apart from theirs,
unless one straddles it. -/
theorem writes_apart (hord : Ordinary stringComparator K) {record later : FWriteRecord V}
    (hrecord : record.Valid K) (hcontains : later.containsPath record.path = false)
    (hoverlap : record.path.contains later.path = false) (hstraddles : ¬later.Straddles record)
    {write other : FPath × FNode V} (hwrite : write ∈ record.writes)
    (hother : other ∈ later.writes) :
    ¬write.1.segments <+: other.1.segments ∧ ¬other.1.segments <+: write.1.segments := by
  have hnot : ¬other.1.segments <+: record.path.segments := fun hbefore => by
    rw [FWriteRecord.containsPath_iff.mpr ⟨other, hother, hbefore⟩] at hcontains
    cases hcontains
  have hnot' : ¬record.path.segments <+: later.path.segments := fun hbefore => by
    rw [( FPath.contains_iff _ _).mpr hbefore] at hoverlap
    cases hoverlap
  have hroot : ¬record.path.segments <+: other.1.segments := fun hbefore =>
    hstraddles ⟨hnot', other, hother, hbefore, fun heq => hnot (heq ▸ List.prefix_refl _)⟩
  have hpath := (hrecord.writes hord hwrite).2
  refine ⟨fun hbefore => hroot (hpath.trans hbefore), fun hbefore => ?_⟩
  rcases List.prefix_or_prefix_of_prefix hbefore hpath with habove | hbelow
  · exact hnot habove
  · exact hroot hbelow

/-- Nothing is above a write of a record that overlaps with no later one. -/
theorem Sound.free (hord : Ordinary stringComparator K) {record : FWriteRecord V}
    {later : List (FWriteRecord V)} (h : Sound K self) (hall : self.allWrites = record :: later)
    (hapart : ∀ other ∈ later, ∀ write ∈ record.writes, ∀ write' ∈ other.writes,
      ¬write.1.segments <+: write'.1.segments ∧ ¬write'.1.segments <+: write.1.segments)
    {write : FPath × FNode V} (hwrite : write ∈ record.writes) {rest : List String}
    {value : FNode V}
    (hcover : coverAt write.1.segments self.visibleWrites.writeTree = some (rest, value)) :
    rest = [] := by
  have hrecords := h.records
  rw [hall] at hrecords
  obtain ⟨hrecord, _⟩ := List.forall_mem_cons.mp hrecords
  obtain ⟨root, hroot, hrootCover⟩ := FImmutableTree.coverAt_split hcover
  have hkeys := (hrecord.writes hord hwrite).1.2
  rw [← hroot, List.forall_mem_append] at hkeys
  have hsaid : (Layers.said (layers self.allWrites) root).isSome := by
    rw [← h.tells root fun key hkey => hord.distinct key (hkeys.1 key hkey),
      FCompoundWrite.tells, hrootCover]
    rfl
  obtain ⟨above, habove, hbefore⟩ := Layers.isSome_said.mp hsaid
  obtain ⟨record', hrecord', other, hother, rfl⟩ := mem_layers.mp habove
  change other.1.segments <+: root at hbefore
  have hbefore' : other.1.segments <+: write.1.segments :=
    hbefore.trans (hroot ▸ List.prefix_append root rest)
  rw [hall] at hrecord'
  rcases List.mem_cons.mp hrecord' with rfl | hlater
  · have hsame := hrecord.eq_of_above hord hother hwrite hbefore'
    have hle := hbefore.length_le
    rw [hsame, ← hroot, List.length_append] at hle
    exact List.length_eq_zero_iff.mp (by omega)
  · exact absurd hbefore' (hapart record' hlater write hwrite other hother).2

/-- Where no later record shadows the oldest one or overlaps with it, its writes
are taken out, and those of the others are left. -/
theorem Sound.removeVisible (hord : Ordinary stringComparator K) {record : FWriteRecord V}
    {later : List (FWriteRecord V)} (h : Sound K self) (hall : self.allWrites = record :: later)
    (hapart : ∀ other ∈ later, ∀ write ∈ record.writes, ∀ write' ∈ other.writes,
      ¬write.1.segments <+: write'.1.segments ∧ ¬write'.1.segments <+: write.1.segments) :
    ∃ visibleWrites,
      FWriteTree.removeVisible stringComparator record self.visibleWrites = .ok visibleWrites ∧
      Sound K { self with visibleWrites, allWrites := later } := by
  have hrecords := h.records
  rw [hall] at hrecords
  obtain ⟨hrecord, hlater⟩ := List.forall_mem_cons.mp hrecords
  have hpaths : ∀ path ∈ record.writes.map Prod.fst, ∀ key ∈ path.segments, key ∈ K :=
    List.forall_mem_map.mpr fun write hwrite => (hrecord.writes hord hwrite).1.2
  obtain ⟨visibleWrites, hremoved, hsound, htells⟩ :=
    FCompoundWrite.foldlM_removeWriteAtPath_eq hord hpaths h.visibleWrites
      (List.forall_mem_map.mpr fun write hwrite _ _ hcover => h.free hord hall hapart hwrite hcover)
  refine ⟨visibleWrites, (removeVisible_eq _).trans hremoved, hsound, fun place hplace => ?_,
    hlater⟩
  have hfirst : ∀ first ∈ record.writes.map layer, ∀ other ∈ layers later,
      ¬first.path <+: other.path ∧ ¬other.path <+: first.path := by
    intro first hfirst other hother
    obtain ⟨write, hwrite, rfl⟩ := List.mem_map.mp hfirst
    obtain ⟨record', hrecord', write', hwrite', rfl⟩ := mem_layers.mp hother
    exact hapart record' hrecord' write hwrite write' hwrite'
  rw [htells, h.tells place hplace, hall, layers_cons, Layers.said_apart hfirst place]
  refine if_congr ?_ rfl rfl
  simp [layer, FCompoundWrite.layerAt]

/-- The oldest write is taken out: the others are what the visible writes then say. -/
theorem Sound.removeFirst (hord : Ordinary stringComparator K) {record : FWriteRecord V}
    {later : List (FWriteRecord V)} (h : Sound K self) (hall : self.allWrites = record :: later)
    (hstraddles : ∀ other ∈ later, ¬other.Straddles record) :
    ∃ answer tree, removeWriteId stringComparator record.writeId self = .ok (answer, tree) ∧
      tree.allWrites = later ∧ Sound K tree ∧
      (tree.lastWriteId = self.lastWriteId ∨
        tree.lastWriteId = (later.getLast?.map FWriteRecord.writeId).getD (-1)) := by
  have hrecords := h.records
  rw [hall] at hrecords
  obtain ⟨hrecord, hlater⟩ := List.forall_mem_cons.mp hrecords
  have hindex : self.allWrites.findIdx? (fun other => other.writeId = record.writeId) = some 0 := by
    rw [hall, List.findIdx?_cons]
    simp
  have hvisible : ∀ entry ∈ later.zipIdx.reverse, entry.1.visible = true := fun entry hentry =>
    (hlater entry.1 (List.fst_mem_of_mem_zipIdx (List.mem_reverse.mp hentry))).visible
  obtain ⟨hshadowed, hfree⟩ := scanWrites_spec record 0 hvisible
    (fun _ _ => Nat.zero_le _) false
  rw [removeWriteId, hindex]
  simp only [hall, List.getElem?_cons_zero, List.eraseIdx_cons_zero, hrecord.visible]
  cases hscan : scanWrites record 0 later.zipIdx.reverse true false with
  | mk wasVisible overlaps =>
      rw [hscan] at hshadowed hfree
      cases wasVisible with
      | false =>
          -- Below a later write, the one taken out says nothing.
          obtain ⟨entry, hentry, hcontains⟩ := hshadowed rfl
          have hmem := List.fst_mem_of_mem_zipIdx (List.mem_reverse.mp hentry)
          obtain ⟨other, hother, hbefore⟩ := FWriteRecord.containsPath_iff.mp hcontains
          refine ⟨false, { self with allWrites := later }, rfl, rfl,
            ⟨h.visibleWrites, fun place hplace => ?_, hlater⟩, .inl rfl⟩
          rw [h.tells place hplace, hall, layers_cons]
          refine Layers.said_shadowed fun first hfirst => ?_
          obtain ⟨write, hwrite, rfl⟩ := List.mem_map.mp hfirst
          refine ⟨layer other, mem_layers.mpr ⟨_, hmem, other, hother, rfl⟩, hbefore.trans ?_⟩
          exact (hrecord.writes hord hwrite).2
      | true =>
          cases overlaps with
          | true =>
              obtain ⟨visibleWrites, hadded, hsound, htells⟩ :=
                FCompoundWrite.foldlM_addWrite_eq hord (valid_writes hord hlater)
                  (FCompoundWrite.sound_emptyWrite (V := V))
              let lastWriteId := (later.getLast?.map FWriteRecord.writeId).getD (-1)
              refine ⟨true, { visibleWrites, allWrites := later, lastWriteId }, ?_, rfl,
                ⟨hsound, fun place hplace => ?_, hlater⟩, .inr rfl⟩
              · simp only [resetTree, layerTreeFromWrites_eq, hadded, bind, Except.bind]
                rfl
              · rw [htells place hplace]
                exact Layers.foldl_onTop_congr FCompoundWrite.tells_emptyWrite
          | false =>
              obtain ⟨visibleWrites, hremoved, hsound⟩ := h.removeVisible hord hall
                fun other hother write hwrite write' hwrite' => by
                  obtain ⟨i, hi⟩ := List.getElem?_of_mem hother
                  obtain ⟨hcontains, hoverlap⟩ := (hfree rfl).2 (other, i)
                    (List.mem_reverse.mpr (List.mem_zipIdx_iff_getElem?.mpr hi))
                  exact writes_apart hord hrecord hcontains hoverlap (hstraddles other hother)
                    hwrite hwrite'
              refine ⟨true, _, ?_, rfl, hsound, .inl rfl⟩
              simp only [hremoved, bind, Except.bind]
              rfl

theorem calculate_of_cover (hord : Ordinary stringComparator K)
    (hvisible : self.visibleWrites.Sound K) {treePath : FPath}
    (htreePath : ∀ key ∈ treePath.segments, key ∈ K) {rest : List String} {value : FNode V}
    (hcover : coverAt treePath.segments self.visibleWrites.writeTree = some (rest, value))
    (completeServerCache : Option (FNode V)) :
    self.calculateCompleteEventCacheAtPath stringComparator treePath completeServerCache =
      .ok (some (FNode.getChildAt rest value)) := by
  rw [calculateCompleteEventCacheAtPath,
    (FCompoundWrite.completeNodeAtPath_eq hord hvisible htreePath).2 rest value hcover]
  rfl

/-- Without the server's data, the client shows only what one write covers. -/
theorem calculate_none (hord : Ordinary stringComparator K)
    (hvisible : self.visibleWrites.Sound K) {treePath : FPath}
    (htreePath : ∀ key ∈ treePath.segments, key ∈ K)
    (hcover : coverAt treePath.segments self.visibleWrites.writeTree = none) :
    self.calculateCompleteEventCacheAtPath stringComparator treePath none = .ok none := by
  obtain ⟨subMerge, hsub, hsoundSub, hcoverSub⟩ :=
    FCompoundWrite.childCompoundWriteAtPath_eq hord hvisible htreePath hcover
  have hroot : coverAt FPath.empty.segments subMerge.writeTree = none := by
    rw [FPath.segments_empty, hcoverSub, List.append_nil, hcover]
  have hcomplete := (FCompoundWrite.completeNodeAtPath_eq hord hsoundSub (by simp)).1 hroot
  rw [calculateCompleteEventCacheAtPath,
    (FCompoundWrite.completeNodeAtPath_eq hord hvisible htreePath).1 hcover]
  simp only [bind, Except.bind, hsub]
  cases hempty : subMerge.isEmpty with
  | true => rfl
  | false => simp [hcomplete]

/-- Where no write is at a path or above it, what is shown is what the writes
below say, and else what the server has. -/
theorem calculate_of_free (hord : Ordinary stringComparator K)
    (hvisible : self.visibleWrites.Sound K) {treePath : FPath}
    (htreePath : ∀ key ∈ treePath.segments, key ∈ K)
    (hcover : coverAt treePath.segments self.visibleWrites.writeTree = none) {server : FNode V}
    (hserver : server.Sound)
    (hclear : Layers.Clear (fun place => FNode.leafAt place server)
      (self.visibleWrites.writeTree.forEach.map layer)) :
    ∃ cache, self.calculateCompleteEventCacheAtPath stringComparator treePath
        (some (server.getChild treePath)) = .ok (some cache) ∧ cache.Sound ∧
      ∀ place, Told K place → FNode.leafAt place cache =
        (self.visibleWrites.tells (treePath.segments ++ place)).getD
          (FNode.leafAt place (server.getChild treePath)) := by
  obtain ⟨subMerge, hsub, hsoundSub, hcoverSub⟩ :=
    FCompoundWrite.childCompoundWriteAtPath_eq hord hvisible htreePath hcover
  have htells : ∀ place, subMerge.tells place =
      self.visibleWrites.tells (treePath.segments ++ place) := fun place => by
    rw [FCompoundWrite.tells, FCompoundWrite.tells, hcoverSub]
  have hsoundServer : (server.getChild treePath).Sound := hserver.getChildAt treePath.segments
  rw [calculateCompleteEventCacheAtPath,
    (FCompoundWrite.completeNodeAtPath_eq hord hvisible htreePath).1 hcover]
  simp only [bind, Except.bind, hsub]
  cases hempty : subMerge.isEmpty with
  | true =>
      refine ⟨server.getChild treePath, rfl, hsoundServer, fun place _ => ?_⟩
      rw [← htells, FCompoundWrite.tells, FImmutableTree.coverAt_of_isEmpty hsoundSub hempty]
      rfl
  | false =>
      have hroot : coverAt FPath.empty.segments subMerge.writeTree = none := by
        rw [FPath.segments_empty, hcoverSub, List.append_nil, hcover]
      have hcomplete := (FCompoundWrite.completeNodeAtPath_eq hord hsoundSub (by simp)).1 hroot
      obtain ⟨cache, hcache, hsoundCache, hleaf⟩ := FCompoundWrite.applyToNode_eq hord hsoundSub
        hsoundServer (FCompoundWrite.clear_child hord hvisible hsoundSub hcoverSub hclear)
      refine ⟨cache, ?_, hsoundCache, fun place hplace => ?_⟩
      · simp [hcomplete, hcache]
      · rw [← htells, hleaf place hplace]

/-- Over the server's data at a path, what is there with the writes that the
visible ones tell of made one after another to all of the server's data. -/
theorem calculate_eq (hord : Ordinary stringComparator K) {writes : List (FPath × FNode V)}
    (hwrites : ∀ write ∈ writes, write.2.Sound ∧ ∀ key ∈ write.1.segments, key ∈ K)
    (hvisible : self.visibleWrites.Sound K)
    (htells : ∀ place, Told K place →
      self.visibleWrites.tells place = Layers.said (writes.map layer) place)
    {treePath : FPath} (htreePath : ∀ key ∈ treePath.segments, key ∈ K) {server : FNode V}
    (hserver : server.Sound) (hclear : ∀ write ∈ writes, ClearOf server write.1.segments) :
    ∃ latest cache,
      writes.foldlM (fun node write => FNode.updateChild write.1 write.2 node) server =
        .ok latest ∧
      self.calculateCompleteEventCacheAtPath stringComparator treePath
        (some (server.getChild treePath)) = .ok (some cache) ∧
      ∀ place, FNode.leafAt place cache = FNode.leafAt place (latest.getChild treePath) := by
  obtain ⟨latest, hlatest, hsoundLatest, hleaf⟩ :=
    FCompoundWrite.foldlM_updateChild_eq hwrites hserver
  have hclearLayers : Layers.Clear (fun place => FNode.leafAt place server)
      (writes.map layer) := by
    intro other hother
    obtain ⟨write, hwrite, rfl⟩ := List.mem_map.mp hother
    exact hclear write hwrite
  -- At each place below the path, what the visible writes say or what the server has.
  have hlatestLeaf : ∀ place, Told K place → FNode.leafAt place (latest.getChild treePath) =
      (self.visibleWrites.tells (treePath.segments ++ place)).getD
        (FNode.leafAt place (server.getChild treePath)) := by
    intro place hplace
    have htold : Told K (treePath.segments ++ place) := List.forall_mem_append.mpr
      ⟨fun key hkey => hord.distinct key (htreePath key hkey), hplace⟩
    rw [FNode.getChild, FNode.getChild, ← FNode.leafAt_append, ← FNode.leafAt_append,
      hleaf _ htold, htells _ htold]
    exact Layers.stack_eq hclearLayers _
  have hext {cache : FNode V} (hcache : cache.Sound) (hsame : ∀ place, Told K place →
      FNode.leafAt place cache = FNode.leafAt place (latest.getChild treePath)) (place) :
      FNode.leafAt place cache = FNode.leafAt place (latest.getChild treePath) := by
    obtain ⟨place', hplace', heq⟩ := FCompoundWrite.exists_told (V := V) hord place
    have hlatestSame := heq (hsoundLatest.getChildAt treePath.segments)
    rw [heq hcache, hsame place' hplace', FNode.getChild, hlatestSame]
  cases hcover : coverAt treePath.segments self.visibleWrites.writeTree with
  | some found =>
      refine ⟨latest, FNode.getChildAt found.1 found.2, hlatest, ?_, ?_⟩
      · exact calculate_of_cover hord hvisible htreePath hcover _
      · refine hext ((hvisible.value hord hcover).getChildAt found.1) fun place hplace => ?_
        rw [hlatestLeaf place hplace, FCompoundWrite.tells, FImmutableTree.coverAt_append hcover,
          ← FNode.leafAt_append]
        rfl
  | none =>
      obtain ⟨cache, hcache, hsoundCache, hcacheLeaf⟩ := calculate_of_free hord hvisible htreePath
        hcover hserver (FCompoundWrite.clear_forEach hord
          (fun write hwrite => (hwrites write hwrite).2) hvisible htells hclear)
      refine ⟨latest, cache, hlatest, hcache, hext hsoundCache fun place hplace => ?_⟩
      rw [hlatestLeaf place hplace, hcacheLeaf place hplace]

end FWriteTree

end FirebaseDatabase
