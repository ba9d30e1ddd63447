import Auctioneer.FirebaseDatabase.CompoundWrite

/-!
The writes that the server has not yet acknowledged, all in a list and the
visible ones as one compound write, and what the client shows meanwhile. Writes
of transactions that are not visible are left out.
-/

namespace FirebaseDatabase

open FImmutableTree (coverAt)

/-- What a record writes: a node in place of what was there, or several below. -/
inductive UserWrite (V : Type) where
  | overwrite (overwrite : FNode V)
  | merge (merge : FCompoundWrite V)

structure FWriteRecord (V : Type) where
  path : FPath
  write : UserWrite V
  writeId : ℤ
  visible : Bool

structure FWriteTree (V : Type) where
  visibleWrites : FCompoundWrite V
  allWrites : List (FWriteRecord V)
  lastWriteId : ℤ

namespace FWriteRecord

variable {V : Type}

/-- `record:containsPath:` -/
def containsPath (path : FPath) (record : FWriteRecord V) : Bool :=
  match record.write with
  | .overwrite _ => record.path.contains path
  | .merge merge =>
      merge.writeTree.forEach.any fun found => (record.path.child found.1).contains path

/-- The nodes that a record puts at their paths. -/
def writes (record : FWriteRecord V) : List (FPath × FNode V) :=
  match record.write with
  | .overwrite overwrite => [(record.path, overwrite)]
  | .merge merge => merge.writeTree.forEach.map fun found => (record.path.child found.1, found.2)

end FWriteRecord

namespace FWriteTree

variable {V : Type}

def init : FWriteTree V where
  visibleWrites := .emptyWrite
  allWrites := []
  lastWriteId := -1

section Operations

variable (stringComparator : String → String → Ordering)

def addOverwriteAtPath (path : FPath) (newData : FNode V) (writeId : ℤ) (visible : Bool)
    (self : FWriteTree V) : Except String (FWriteTree V) :=
  if writeId ≤ self.lastWriteId then .error "Stacking an older write on top of a newer one"
  else do
    let visibleWrites ←
      if visible then self.visibleWrites.addWrite stringComparator newData path
      else .ok self.visibleWrites
    let record := { path, write := .overwrite newData, writeId, visible }
    .ok { visibleWrites, allWrites := self.allWrites ++ [record], lastWriteId := writeId }

def addMergeAtPath (path : FPath) (changedChildren : FCompoundWrite V) (writeId : ℤ)
    (self : FWriteTree V) : Except String (FWriteTree V) :=
  if writeId ≤ self.lastWriteId then .error "Stacking an older merge on top of newer one"
  else do
    let visibleWrites ←
      FCompoundWrite.addCompoundWrite stringComparator changedChildren path self.visibleWrites
    let record := { path, write := .merge changedChildren, writeId, visible := true }
    .ok { visibleWrites, allWrites := self.allWrites ++ [record], lastWriteId := writeId }

/-- The body of the loop of `layerTreeFromWrites`. -/
def layerRecord (treeRoot : FPath) (compoundWrite : FCompoundWrite V) (record : FWriteRecord V) :
    Except String (FCompoundWrite V) :=
  if treeRoot.contains record.path then do
    let relativePath ← FPath.relativePathFrom treeRoot record.path
    match record.write with
    | .overwrite overwrite => compoundWrite.addWrite stringComparator overwrite relativePath
    | .merge merge =>
        FCompoundWrite.addCompoundWrite stringComparator merge relativePath compoundWrite
  else if record.path.contains treeRoot then do
    let relativePath ← FPath.relativePathFrom record.path treeRoot
    match record.write with
    | .overwrite overwrite =>
        compoundWrite.addWrite stringComparator (overwrite.getChild relativePath) FPath.empty
    | .merge merge =>
        if relativePath.isEmpty then
          FCompoundWrite.addCompoundWrite stringComparator merge FPath.empty compoundWrite
        else
          match ← merge.completeNodeAtPath stringComparator relativePath with
          | some child =>
              let deepNode := child.getChild relativePath.popFront
              compoundWrite.addWrite stringComparator deepNode FPath.empty
          | none => .ok compoundWrite
  else .ok compoundWrite

def layerTreeFromWrites (writes : List (FWriteRecord V)) (filter : FWriteRecord V → Bool)
    (treeRoot : FPath) : Except String (FCompoundWrite V) :=
  (writes.filter filter).foldlM (layerRecord stringComparator treeRoot) .emptyWrite

/-- The default filter keeps every record. -/
def resetTree (self : FWriteTree V) : Except String (FWriteTree V) := do
  let visibleWrites ←
    layerTreeFromWrites stringComparator self.allWrites (fun _ => true) FPath.empty
  .ok { self with
    visibleWrites
    lastWriteId := (self.allWrites.getLast?.map FWriteRecord.writeId).getD (-1) }

/-- The loop of `removeWriteId` from the last record on: whether the write was
visible, and whether it overlaps with others. -/
def scanWrites (writeToRemove : FWriteRecord V) (index : ℕ) :
    List (FWriteRecord V × ℕ) → Bool → Bool → Bool × Bool
  | [], wasVisible, overlaps => (wasVisible, overlaps)
  | (currentWrite, i) :: rest, wasVisible, overlaps =>
      if !wasVisible then (wasVisible, overlaps)
      else if currentWrite.visible then
        if index ≤ i && currentWrite.containsPath writeToRemove.path then
          scanWrites writeToRemove index rest false overlaps
        else if writeToRemove.path.contains currentWrite.path then
          scanWrites writeToRemove index rest wasVisible true
        else scanWrites writeToRemove index rest wasVisible overlaps
      else scanWrites writeToRemove index rest wasVisible overlaps

/-- What is taken out where nothing shadows or overlaps. -/
def removeVisible (writeToRemove : FWriteRecord V) (visibleWrites : FCompoundWrite V) :
    Except String (FCompoundWrite V) :=
  match writeToRemove.write with
  | .overwrite _ => visibleWrites.removeWriteAtPath stringComparator writeToRemove.path
  | .merge merge =>
      merge.writeTree.forEach.foldlM (fun visibleWrites found =>
        FCompoundWrite.removeWriteAtPath stringComparator (writeToRemove.path.child found.1)
          visibleWrites) visibleWrites

/-- With the answer whether views need to reevaluate. -/
def removeWriteId (writeId : ℤ) (self : FWriteTree V) : Except String (Bool × FWriteTree V) :=
  match self.allWrites.findIdx? fun record => record.writeId = writeId with
  | none => .error "[FWriteTree removeWriteId:] called with nonexistent writeId."
  | some index =>
      match self.allWrites[index]? with
      | none => .error "NSRangeException"
      | some writeToRemove => do
          let allWrites := self.allWrites.eraseIdx index
          let (wasVisible, overlaps) :=
            scanWrites writeToRemove index allWrites.zipIdx.reverse writeToRemove.visible false
          if !wasVisible then .ok (false, { self with allWrites })
          else if overlaps then do
            let self ← resetTree stringComparator { self with allWrites }
            .ok (true, self)
          else do
            let visibleWrites ← removeVisible stringComparator writeToRemove self.visibleWrites
            .ok (true, { self with visibleWrites, allWrites })

/-- Without writes to exclude and hidden writes. -/
def calculateCompleteEventCacheAtPath (treePath : FPath) (completeServerCache : Option (FNode V))
    (self : FWriteTree V) : Except String (Option (FNode V)) := do
  match ← self.visibleWrites.completeNodeAtPath stringComparator treePath with
  | some shadowingNode => .ok (some shadowingNode)
  | none =>
      let subMerge ← self.visibleWrites.childCompoundWriteAtPath stringComparator treePath
      if subMerge.isEmpty then .ok completeServerCache
      else
        let complete ← subMerge.completeNodeAtPath stringComparator FPath.empty
        if completeServerCache.isNone && complete.isNone then .ok none
        else do
          let node ← subMerge.applyToNode (completeServerCache.getD .emptyNode)
          .ok (some node)

end Operations

end FWriteTree

/-- The client's counter of writes and those that are pending. -/
structure FRepo (V : Type) where
  writeIdCounter : ℤ
  pendingWriteTree : FWriteTree V

namespace FRepo

variable {V : Type}

def start : FRepo V := ⟨0, .init⟩

/-- What the app calls, and the acknowledgement of a write. -/
inductive Event (V : Type) where
  | set (path : FPath) (node : FNode V)
  | update (path : FPath) (nodes : FCompoundWrite V)
  | ackWrite (writeId : ℤ)

def step (stringComparator : String → String → Ordering) (self : FRepo V) :
    Event V → Except String (FRepo V)
  | .set path node => do
      let pendingWriteTree ← self.pendingWriteTree.addOverwriteAtPath stringComparator path node
        self.writeIdCounter true
      .ok { writeIdCounter := self.writeIdCounter + 1, pendingWriteTree }
  | .update path nodes =>
      if nodes.isEmpty then .ok self
      else do
        let pendingWriteTree ← self.pendingWriteTree.addMergeAtPath stringComparator path nodes
          self.writeIdCounter
        .ok { writeIdCounter := self.writeIdCounter + 1, pendingWriteTree }
  | .ackWrite writeId => do
      let (_, pendingWriteTree) ←
        self.pendingWriteTree.removeWriteId stringComparator writeId
      .ok { self with pendingWriteTree }

end FRepo

end FirebaseDatabase
