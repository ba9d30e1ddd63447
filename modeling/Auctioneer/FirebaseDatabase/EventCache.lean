import Auctioneer.FirebaseDatabase.PendingWrites
import Auctioneer.Library.Machine

/-!
What the client shows over its copy of the server's data is that data with the
pending writes made one after another, in every run of writes and of
acknowledgements in their order, but for an update that straddles a write: it can
go from what is shown with that write's acknowledgement.
-/

namespace FirebaseDatabase

open FImmutableTree (coverAt)
open FCompoundWrite (layer Told ClearOf lampKeys ordinary_lampKeys childKeys_lampKeys)

variable {V : Type} {stringComparator : String → String → Ordering} {K : Set String}

namespace FRepo

variable {self : FRepo V} {path : FPath} {node : FNode V} {nodes : FCompoundWrite V}

/-- What may happen: sound nodes are set, sound children are updated, and the
server acknowledges the oldest write, which no later one straddles. -/
def Allowed (K : Set String) (self : FRepo V) : Event V → Prop
  | .set path node => node.Sound ∧ ∀ key ∈ path.segments, key ∈ K
  | .update path nodes => nodes.Sound K ∧ ∀ key ∈ path.segments, key ∈ K
  | .ackWrite writeId => ∃ record later, self.pendingWriteTree.allWrites = record :: later ∧
      record.writeId = writeId ∧ ∀ other ∈ later, ¬other.Straddles record

/-- What is asked to be written. -/
def Event.issued : Event V → Option (List (FPath × FNode V))
  | .set path node => some [(path, node)]
  | .update path nodes =>
      if nodes.isEmpty then none
      else some (nodes.writeTree.forEach.map fun found => (path.child found.1, found.2))
  | .ackWrite _ => none

/-- The writes that wait for the server, as a queue. -/
def Event.queue (pending : List (List (FPath × FNode V))) : Event V → List (List (FPath × FNode V))
  | .ackWrite _ => pending.tail
  | event => pending ++ event.issued.toList

structure Sound (K : Set String) (repo : FRepo V) : Prop where
  tree : repo.pendingWriteTree.Sound K
  counter : -1 < repo.writeIdCounter
  last : repo.pendingWriteTree.lastWriteId < repo.writeIdCounter
  ids : ∀ record ∈ repo.pendingWriteTree.allWrites, record.writeId < repo.writeIdCounter

theorem sound_start : Sound K (start : FRepo V) where
  tree := FWriteTree.sound_init
  counter := Int.negSucc_lt_zero 0
  last := Int.negSucc_lt_zero 0
  ids := List.forall_mem_nil _

/-- The counter goes on with the record of its write. -/
theorem Sound.add (h : Sound K self) {tree : FWriteTree V} {record : FWriteRecord V}
    (htree : tree.Sound K) (hall : tree.allWrites = self.pendingWriteTree.allWrites ++ [record])
    (hlast : tree.lastWriteId = self.writeIdCounter) (hid : record.writeId = self.writeIdCounter) :
    Sound K ⟨self.writeIdCounter + 1, tree⟩ where
  tree := htree
  counter := by
    have hcounter := h.counter
    dsimp only
    omega
  last := by
    dsimp only
    omega
  ids := by
    rw [hall]
    intro other hother
    dsimp only
    rcases List.mem_append.mp hother with hold | hnew
    · have hlt := h.ids other hold
      omega
    · rw [List.mem_singleton.mp hnew]
      omega

theorem step_set (hord : Ordinary stringComparator K) (h : Sound K self) (hnode : node.Sound)
    (hpath : ∀ key ∈ path.segments, key ∈ K) :
    ∃ next, step stringComparator self (.set path node) = .ok next ∧ Sound K next ∧
      next.pendingWriteTree.allWrites = self.pendingWriteTree.allWrites ++
        [⟨path, .overwrite node, self.writeIdCounter, true⟩] := by
  let record : FWriteRecord V := ⟨path, .overwrite node, self.writeIdCounter, true⟩
  have hrecord : record.Valid K := FWriteRecord.valid_overwrite hpath hnode self.writeIdCounter
  obtain ⟨visibleWrites, hadded, hsound⟩ := h.tree.add hord hrecord self.writeIdCounter
  refine ⟨_, ?_, h.add hsound rfl rfl rfl, rfl⟩
  have hwritten : self.pendingWriteTree.visibleWrites.addWrite stringComparator node path =
      .ok visibleWrites := by simpa [record, FWriteRecord.writes] using hadded
  rw [step, FWriteTree.addOverwriteAtPath, if_neg (by have hlast := h.last; omega)]
  simp only [if_true, hwritten, bind, Except.bind]
  rfl

theorem step_update (hord : Ordinary stringComparator K) (h : Sound K self)
    (hnodes : nodes.Sound K) (hpath : ∀ key ∈ path.segments, key ∈ K)
    (hempty : nodes.isEmpty = false) :
    ∃ next, step stringComparator self (.update path nodes) = .ok next ∧ Sound K next ∧
      next.pendingWriteTree.allWrites = self.pendingWriteTree.allWrites ++
        [⟨path, .merge nodes, self.writeIdCounter, true⟩] := by
  let record : FWriteRecord V := ⟨path, .merge nodes, self.writeIdCounter, true⟩
  have hrecord : record.Valid K := FWriteRecord.valid_merge hpath hnodes self.writeIdCounter
  obtain ⟨visibleWrites, hadded, hsound⟩ := h.tree.add hord hrecord self.writeIdCounter
  refine ⟨_, ?_, h.add hsound rfl rfl rfl, rfl⟩
  have hwritten : FCompoundWrite.addCompoundWrite stringComparator nodes path
      self.pendingWriteTree.visibleWrites = .ok visibleWrites := by
    rw [← hadded, FCompoundWrite.addCompoundWrite]
    simp [record, FWriteRecord.writes, List.foldlM_map]
  have hlast := h.last
  rw [step, hempty, if_neg Bool.false_ne_true, FWriteTree.addMergeAtPath, if_neg (by omega)]
  simp only [hwritten, bind, Except.bind]
  rfl

theorem step_ackWrite (hord : Ordinary stringComparator K) (h : Sound K self)
    {record : FWriteRecord V} {later : List (FWriteRecord V)}
    (hall : self.pendingWriteTree.allWrites = record :: later)
    (hstraddles : ∀ other ∈ later, ¬other.Straddles record) :
    ∃ next, step stringComparator self (.ackWrite record.writeId) = .ok next ∧ Sound K next ∧
      next.pendingWriteTree.allWrites = later := by
  obtain ⟨answer, tree, hremoved, hlater, hsound, hlast⟩ := h.tree.removeFirst hord hall hstraddles
  have hids := h.ids
  rw [hall] at hids
  refine ⟨⟨self.writeIdCounter, tree⟩, ?_, ⟨hsound, h.counter, ?_, ?_⟩, hlater⟩
  · rw [step, hremoved]
    rfl
  · rcases hlast with hsame | hlast
    · exact hsame ▸ h.last
    · rw [hlast]
      cases hgetLast : later.getLast? with
      | none => exact h.counter
      | some last => exact hids last (List.mem_cons_of_mem _ (List.mem_of_getLast? hgetLast))
  · rw [hlater]
    exact fun other hother => hids other (List.mem_cons_of_mem _ hother)

/-- What may happen does not throw, and does to the queue what it should. -/
theorem step_eq (hord : Ordinary stringComparator K) (h : Sound K self) {event : Event V}
    (hallowed : Allowed K self event) :
    ∃ next, step stringComparator self event = .ok next ∧ Sound K next ∧
      next.pendingWriteTree.allWrites.map FWriteRecord.writes =
        event.queue (self.pendingWriteTree.allWrites.map FWriteRecord.writes) := by
  cases event with
  | set path node =>
      obtain ⟨next, hnext, hsound, hall⟩ := step_set hord h hallowed.1 hallowed.2
      exact ⟨next, hnext, hsound, by rw [hall, List.map_append]; rfl⟩
  | update path nodes =>
      obtain ⟨hnodes, hpath⟩ := hallowed
      cases hempty : nodes.isEmpty with
      | true =>
          refine ⟨self, by rw [step, if_pos hempty], h, ?_⟩
          simp [Event.queue, Event.issued, hempty]
      | false =>
          obtain ⟨next, hnext, hsound, hall⟩ := step_update hord h hnodes hpath hempty
          refine ⟨next, hnext, hsound, ?_⟩
          rw [hall, List.map_append]
          simp [Event.queue, Event.issued, hempty, FWriteRecord.writes]
  | ackWrite writeId =>
      obtain ⟨record, later, hall, rfl, hstraddles⟩ := hallowed
      obtain ⟨next, hnext, hsound, hlater⟩ := step_ackWrite hord h hall hstraddles
      exact ⟨next, hnext, hsound, by rw [hlater, hall]; rfl⟩

/-- A step that does not throw. -/
def next (stringComparator : String → String → Ordering) (self : FRepo V) (event : Event V) :
    Option (FRepo V) := (step stringComparator self event).toOption

/-- A run goes on in a sound state after its first event. -/
theorem along_cons (hord : Ordinary stringComparator K) (h : Sound K self) {event : Event V}
    {events : List (Event V)}
    (halong : Machine.Along (next stringComparator) (Allowed K) self (event :: events)) :
    ∃ repo, next stringComparator self event = some repo ∧ Sound K repo ∧
      repo.pendingWriteTree.allWrites.map FWriteRecord.writes =
        event.queue (self.pendingWriteTree.allWrites.map FWriteRecord.writes) ∧
      Allowed K self event ∧ Machine.Along (next stringComparator) (Allowed K) repo events := by
  obtain ⟨hallowed, hrest⟩ := halong
  obtain ⟨repo, hstep, hsound, hqueue⟩ := step_eq hord h hallowed
  have hnext : next stringComparator self event = some repo := by rw [next, hstep]; rfl
  rw [hnext] at hrest
  exact ⟨repo, hnext, hsound, hqueue, hallowed, hrest⟩

theorem run_eq (hord : Ordinary stringComparator K) (h : Sound K self) {events : List (Event V)}
    (halong : Machine.Along (next stringComparator) (Allowed K) self events) :
    ∃ repo, Machine.run (next stringComparator) self events = some repo ∧ Sound K repo ∧
      repo.pendingWriteTree.allWrites.map FWriteRecord.writes =
        events.foldl Event.queue (self.pendingWriteTree.allWrites.map FWriteRecord.writes) := by
  induction events generalizing self with
  | nil => exact ⟨self, rfl, h, rfl⟩
  | cons event events ih =>
      obtain ⟨repo, hnext, hsound, hqueue, _, hrest⟩ := along_cons hord h halong
      obtain ⟨repo', hrun, hsound', hqueue'⟩ := ih hsound hrest
      refine ⟨repo', ?_, hsound', ?_⟩
      · rw [Machine.run, hnext, Option.bind_some, hrun]
      · rw [hqueue', hqueue, List.foldl_cons]

theorem run_start (hord : Ordinary stringComparator K) {events : List (Event V)}
    (halong : Machine.Along (next stringComparator) (Allowed K) start events) :
    ∃ repo, Machine.run (next stringComparator) start events = some repo ∧ Sound K repo ∧
      repo.pendingWriteTree.allWrites.flatMap FWriteRecord.writes =
        (events.foldl Event.queue []).flatten := by
  obtain ⟨repo, hrun, hsound, hqueue⟩ := run_eq hord sound_start halong
  refine ⟨repo, hrun, hsound, ?_⟩
  rw [List.flatMap_def, hqueue]
  rfl

/-- Over whatever the server has, what is shown at a path is what is there once
the pending writes have been made one after another. -/
theorem Sound.shown (hord : Ordinary stringComparator K) (h : Sound K self) {treePath : FPath}
    (htreePath : ∀ key ∈ treePath.segments, key ∈ K) {server : FNode V} (hserver : server.Sound)
    (hclear : ∀ write ∈ self.pendingWriteTree.allWrites.flatMap FWriteRecord.writes,
      ClearOf server write.1.segments) :
    ∃ latest cache,
      (self.pendingWriteTree.allWrites.flatMap FWriteRecord.writes).foldlM
        (fun node write => FNode.updateChild write.1 write.2 node) server = .ok latest ∧
      self.pendingWriteTree.calculateCompleteEventCacheAtPath stringComparator treePath
        (some (server.getChild treePath)) = .ok (some cache) ∧
      ∀ place, FNode.leafAt place cache = FNode.leafAt place (latest.getChild treePath) :=
  FWriteTree.calculate_eq hord (FWriteTree.valid_writes hord h.tree.records)
    h.tree.visibleWrites h.tree.tells htreePath hserver hclear

/-- In any run of writes and of acknowledgements in their order, whatever the
server has, what the client shows at a path is what is there once the writes of
the queue have been made one after another. -/
theorem event_cache (hkeys : ChildKeys stringComparator K) {events : List (Event V)}
    (halong : Machine.Along (next stringComparator) (Allowed K) start events) {treePath : FPath}
    (htreePath : ∀ key ∈ treePath.segments, key ∈ K) {server : FNode V} (hserver : server.Sound)
    (hclear : ∀ write ∈ (events.foldl Event.queue []).flatten,
      ClearOf server write.1.segments) :
    ∃ repo latest cache, Machine.run (next stringComparator) start events = some repo ∧
      (events.foldl Event.queue []).flatten.foldlM
        (fun node write => FNode.updateChild write.1 write.2 node) server = .ok latest ∧
      repo.pendingWriteTree.calculateCompleteEventCacheAtPath stringComparator treePath
        (some (server.getChild treePath)) = .ok (some cache) ∧
      ∀ place, FNode.leafAt place cache = FNode.leafAt place (latest.getChild treePath) := by
  obtain ⟨repo, hrun, hsound, hpending⟩ := run_start hkeys.toOrdinary halong
  rw [← hpending] at hclear ⊢
  obtain ⟨latest, cache, hlatest, hcache, hleaf⟩ :=
    hsound.shown hkeys.toOrdinary htreePath hserver hclear
  exact ⟨repo, latest, cache, hrun, hlatest, hcache, hleaf⟩

/-- A lamp is named and priced by an update from above it, and the server has
acknowledged the name. -/
theorem event_cache_of_lamp :
    ∃ (nodes : FCompoundWrite Nat) (repo : FRepo Nat) (latest cache : FNode Nat),
      (∀ found ∈ nodes.writeTree.forEach,
        found.1.segments = ["lamp", "price"] ∧ found.2 = .leaf 7) ∧
      Machine.run (next FUtilities.literalOrder) start
        [.set (FPath.initWith "lamp/name") (.leaf 3), .update FPath.empty nodes, .ackWrite 0] =
        some repo ∧
      (nodes.writeTree.forEach.map fun found => (FPath.empty.child found.1, found.2)).foldlM
        (fun node write => FNode.updateChild write.1 write.2 node) .emptyNode = .ok latest ∧
      repo.pendingWriteTree.calculateCompleteEventCacheAtPath FUtilities.literalOrder
        (FPath.initWith "lamp") (some (FNode.emptyNode.getChild (FPath.initWith "lamp"))) =
        .ok (some cache) ∧
      ∀ place, FNode.leafAt place cache =
        FNode.leafAt place (latest.getChild (FPath.initWith "lamp")) := by
  have hlamp : ∀ key ∈ (FPath.initWith "lamp").segments, key ∈ lampKeys := by decide
  have hname : ∀ key ∈ (FPath.initWith "lamp/name").segments, key ∈ lampKeys := by decide
  have hprice : ∀ key ∈ (FPath.initWith "lamp/price").segments, key ∈ lampKeys := by decide
  have hroot : ∀ key ∈ FPath.empty.segments, key ∈ lampKeys := by decide
  have hsegments : (FPath.initWith "lamp/price").segments = ["lamp", "price"] := by decide
  obtain ⟨nodes, -, hsound, hempty, hnodes⟩ :=
    FCompoundWrite.addWrite_emptyWrite ordinary_lampKeys (.leaf 7) hprice
  rw [hsegments] at hnodes
  obtain ⟨named, hnamed, hsoundNamed, hallNamed⟩ :=
    step_set ordinary_lampKeys sound_start (.leaf 3) hname
  obtain ⟨priced, hpriced, hsoundPriced, hallPriced⟩ :=
    step_update ordinary_lampKeys hsoundNamed hsound hroot hempty
  have hstraddles : ∀ other ∈ [(⟨FPath.empty, .merge nodes, named.writeIdCounter, true⟩ :
      FWriteRecord Nat)], ¬other.Straddles
        ⟨FPath.initWith "lamp/name", .overwrite (.leaf 3), 0, true⟩ := by
    rw [List.forall_mem_singleton]
    rintro ⟨-, write, hwrite, hbelow, -⟩
    obtain ⟨found, hfound, rfl⟩ := List.mem_map.mp hwrite
    rw [FPath.segments_child, FPath.segments_empty, (hnodes found hfound).1] at hbelow
    revert hbelow
    decide
  have halong : Machine.Along (next FUtilities.literalOrder) (Allowed {key | key ∈ lampKeys}) start
      [.set (FPath.initWith "lamp/name") (.leaf 3), .update FPath.empty nodes, .ackWrite 0] := by
    refine ⟨⟨.leaf 3, hname⟩, ?_⟩
    simp only [next, hnamed, Except.toOption]
    refine ⟨⟨hsound, hroot⟩, ?_⟩
    simp only [next, hpriced, Except.toOption]
    refine ⟨⟨_, _, ?_, rfl, hstraddles⟩, ?_⟩
    · rw [hallPriced, hallNamed]
      rfl
    · split <;> trivial
  obtain ⟨repo, latest, cache, hrun, hlatest, hcache, hcacheLeaf⟩ :=
    event_cache childKeys_lampKeys halong hlamp FNode.sound_emptyNode
      fun _ _ place _ _ => FNode.leafAt_emptyNode place
  refine ⟨nodes, repo, latest, cache, hnodes, hrun, ?_, hcache, hcacheLeaf⟩
  rw [← hlatest]
  simp [Event.queue, Event.issued, hempty]

/-- Without the server's data, the client shows something at a path just when a
pending write is there or above, and then what it would show with any data. -/
theorem event_cache_without_server (hkeys : ChildKeys stringComparator K)
    {events : List (Event V)}
    (halong : Machine.Along (next stringComparator) (Allowed K) start events) {treePath : FPath}
    (htreePath : ∀ key ∈ treePath.segments, key ∈ K) :
    ∃ repo shown, Machine.run (next stringComparator) start events = some repo ∧
      repo.pendingWriteTree.calculateCompleteEventCacheAtPath stringComparator treePath none =
        .ok shown ∧
      (shown.isSome ↔ ∃ write ∈ (events.foldl Event.queue []).flatten,
        write.1.segments <+: treePath.segments) ∧
      ∀ cache ∈ shown, ∀ server : FNode V, server.Sound →
        (∀ write ∈ (events.foldl Event.queue []).flatten, ClearOf server write.1.segments) →
        ∃ latest, (events.foldl Event.queue []).flatten.foldlM
            (fun node write => FNode.updateChild write.1 write.2 node) server = .ok latest ∧
          ∀ place, FNode.leafAt place cache = FNode.leafAt place (latest.getChild treePath) := by
  have hord := hkeys.toOrdinary
  obtain ⟨repo, hrun, hsound, hpending⟩ := run_start hord halong
  rw [← hpending]
  have htree := hsound.tree
  have hcovered : (coverAt treePath.segments repo.pendingWriteTree.visibleWrites.writeTree).isSome ↔
      ∃ write ∈ repo.pendingWriteTree.allWrites.flatMap FWriteRecord.writes,
        write.1.segments <+: treePath.segments := by
    have htells := htree.tells treePath.segments fun key hkey =>
      hord.distinct key (htreePath key hkey)
    rw [FCompoundWrite.tells] at htells
    rw [← Option.isSome_map, htells, Layers.isSome_said, FWriteTree.layers]
    constructor
    · rintro ⟨other, hother, hbefore⟩
      obtain ⟨write, hwrite, rfl⟩ := List.mem_map.mp hother
      exact ⟨write, hwrite, hbefore⟩
    · rintro ⟨write, hwrite, hbefore⟩
      exact ⟨layer write, List.mem_map_of_mem hwrite, hbefore⟩
  cases hcover : coverAt treePath.segments repo.pendingWriteTree.visibleWrites.writeTree with
  | none =>
      rw [hcover] at hcovered
      exact ⟨repo, none, hrun, FWriteTree.calculate_none hord htree.visibleWrites htreePath hcover,
        hcovered, fun cache hcache => by cases hcache⟩
  | some found =>
      rw [hcover] at hcovered
      have hshown := FWriteTree.calculate_of_cover hord htree.visibleWrites htreePath hcover
      refine ⟨repo, _, hrun, hshown none, hcovered, ?_⟩
      rintro _ ⟨⟩ server hserver hclear
      obtain ⟨latest, cache, hlatest, hcache, hleaf⟩ :=
        hsound.shown hord htreePath hserver hclear
      rw [hshown] at hcache
      obtain rfl := Option.some.inj (Except.ok.inj hcache)
      exact ⟨latest, hlatest, hleaf⟩

/-- A lamp is set before the server's data has come, which turns out to have no
lamp. -/
theorem event_cache_without_server_of_lamp :
    ∃ (repo : FRepo Nat) (cache latest : FNode Nat),
      Machine.run (next FUtilities.literalOrder) start
        [.set (FPath.initWith "lamp") (.leaf 3)] = some repo ∧
      repo.pendingWriteTree.calculateCompleteEventCacheAtPath FUtilities.literalOrder
        (FPath.initWith "lamp") none = .ok (some cache) ∧
      [(FPath.initWith "lamp", .leaf 3)].foldlM
        (fun node write => FNode.updateChild write.1 write.2 node) .emptyNode = .ok latest ∧
      ∀ place, FNode.leafAt place cache =
        FNode.leafAt place (latest.getChild (FPath.initWith "lamp")) := by
  have hlamp : ∀ key ∈ (FPath.initWith "lamp").segments, key ∈ lampKeys := by decide
  have halong : Machine.Along (next FUtilities.literalOrder) (Allowed {key | key ∈ lampKeys}) start
      [.set (FPath.initWith "lamp") (.leaf 3)] := by
    refine ⟨⟨.leaf 3, hlamp⟩, ?_⟩
    split <;> trivial
  obtain ⟨repo, shown, hrun, hshown, hsome, hsame⟩ :=
    event_cache_without_server childKeys_lampKeys halong hlamp
  obtain ⟨cache, rfl⟩ := Option.isSome_iff_exists.mp
    (hsome.mpr ⟨(FPath.initWith "lamp", .leaf 3), List.mem_singleton_self _, List.prefix_refl _⟩)
  obtain ⟨latest, hlatest, hleaf⟩ := hsame cache rfl .emptyNode FNode.sound_emptyNode
    fun _ _ place _ _ => FNode.leafAt_emptyNode place
  exact ⟨repo, cache, latest, hrun, hshown, hlatest, hleaf⟩

def Event.isAck : Event V → Bool
  | .ackWrite _ => true
  | _ => false

/-- The queue goes on with what is issued, and goes off with what is acknowledged. -/
theorem queue_eq (hord : Ordinary stringComparator K) (h : Sound K self) {events : List (Event V)}
    (halong : Machine.Along (next stringComparator) (Allowed K) self events) :
    events.foldl Event.queue (self.pendingWriteTree.allWrites.map FWriteRecord.writes) =
      (self.pendingWriteTree.allWrites.map FWriteRecord.writes ++
        events.filterMap Event.issued).drop (events.countP Event.isAck) := by
  induction events generalizing self with
  | nil => simp
  | cons event events ih =>
      obtain ⟨repo, _, hsound, hqueue, hallowed, hrest⟩ := along_cons hord h halong
      have hafter := ih hsound hrest
      rw [hqueue] at hafter
      rw [List.foldl_cons, hafter]
      cases event with
      | set path node => simp [Event.queue, Event.issued, Event.isAck]
      | update path nodes =>
          cases hempty : nodes.isEmpty <;> simp [Event.queue, Event.issued, Event.isAck, hempty]
      | ackWrite writeId =>
          obtain ⟨record, later, hall, _⟩ := hallowed
          have hcount : (Event.ackWrite writeId :: events).countP Event.isAck =
              events.countP Event.isAck + 1 := List.countP_cons_of_pos rfl
          have hissued : (Event.ackWrite writeId :: events).filterMap Event.issued =
              events.filterMap Event.issued := List.filterMap_cons_none rfl
          rw [hcount, hissued, hall, Event.queue]
          simp

theorem Allowed.issued (hord : Ordinary stringComparator K) {event : Event V}
    (h : Allowed K self event) {writes : List (FPath × FNode V)}
    (hwrites : event.issued = some writes) {write : FPath × FNode V} (hwrite : write ∈ writes) :
    write.2.Sound ∧ ∀ key ∈ write.1.segments, key ∈ K := by
  cases event with
  | set path node =>
      cases hwrites
      obtain rfl := List.mem_singleton.mp hwrite
      exact h
  | update path nodes =>
      have hvalid := FWriteRecord.valid_merge h.2 h.1 self.writeIdCounter
      rw [Event.issued] at hwrites
      split at hwrites
      · cases hwrites
      · cases hwrites
        exact (hvalid.writes hord hwrite).1
  | ackWrite writeId => cases hwrites

theorem issued_valid (hord : Ordinary stringComparator K) (h : Sound K self)
    {events : List (Event V)}
    (halong : Machine.Along (next stringComparator) (Allowed K) self events) :
    ∀ write ∈ (events.filterMap Event.issued).flatten,
      write.2.Sound ∧ ∀ key ∈ write.1.segments, key ∈ K := by
  induction events generalizing self with
  | nil => simp
  | cons event events ih =>
      obtain ⟨repo, _, hsound, _, hallowed, hrest⟩ := along_cons hord h halong
      have hafter := ih hsound hrest
      cases hissued : event.issued with
      | none => rwa [List.filterMap_cons_none hissued]
      | some writes =>
          rw [List.filterMap_cons_some hissued, List.flatten_cons]
          exact List.forall_mem_append.mpr
            ⟨fun write hwrite => hallowed.issued hord hissued hwrite, hafter⟩

/-- Where the server's data is a base with the acknowledged writes, the client
shows the base with all that was issued, so that no acknowledgement is seen. -/
theorem event_cache_issued (hkeys : ChildKeys stringComparator K) {events : List (Event V)}
    (halong : Machine.Along (next stringComparator) (Allowed K) start events) {treePath : FPath}
    (htreePath : ∀ key ∈ treePath.segments, key ∈ K) {base : FNode V} (hbase : base.Sound) :
    ∃ repo server latest, Machine.run (next stringComparator) start events = some repo ∧
      ((events.filterMap Event.issued).take (events.countP Event.isAck)).flatten.foldlM
        (fun node write => FNode.updateChild write.1 write.2 node) base = .ok server ∧
      (events.filterMap Event.issued).flatten.foldlM
        (fun node write => FNode.updateChild write.1 write.2 node) base = .ok latest ∧
      ((∀ write ∈ ((events.filterMap Event.issued).drop (events.countP Event.isAck)).flatten,
          ClearOf server write.1.segments) →
        ∃ cache, repo.pendingWriteTree.calculateCompleteEventCacheAtPath stringComparator
            treePath (some (server.getChild treePath)) = .ok (some cache) ∧
          ∀ place, FNode.leafAt place cache = FNode.leafAt place (latest.getChild treePath)) := by
  have hord := hkeys.toOrdinary
  have hvalid := issued_valid hord sound_start halong
  have hqueue : events.foldl Event.queue [] =
      (events.filterMap Event.issued).drop (events.countP Event.isAck) :=
    queue_eq hord sound_start halong
  have hsplit := congrArg List.flatten
    (List.take_append_drop (events.countP Event.isAck) (events.filterMap Event.issued))
  rw [List.flatten_append] at hsplit
  rw [← hsplit] at hvalid ⊢
  obtain ⟨hacked, _⟩ := List.forall_mem_append.mp hvalid
  obtain ⟨server, hserver, hsoundServer, _⟩ := FCompoundWrite.foldlM_updateChild_eq hacked hbase
  obtain ⟨latest, hlatest, _⟩ := FCompoundWrite.foldlM_updateChild_eq hvalid hbase
  obtain ⟨repo, hrun, hsound, hpending⟩ := run_start hord halong
  refine ⟨repo, server, latest, hrun, hserver, hlatest, fun hclear => ?_⟩
  rw [← hqueue, ← hpending] at hclear
  obtain ⟨latest', cache, hlatest', hcache, hleaf⟩ :=
    hsound.shown hord htreePath hsoundServer hclear
  rw [hpending, hqueue] at hlatest'
  rw [List.foldlM_append, hserver] at hlatest
  obtain rfl := Except.ok.inj (hlatest.symm.trans hlatest')
  exact ⟨cache, hcache, hleaf⟩

/-- A lamp is set twice, and the server has the first. -/
theorem event_cache_issued_of_lamp :
    ∃ (repo : FRepo Nat) (server latest cache : FNode Nat),
      Machine.run (next FUtilities.literalOrder) start
        [.set (FPath.initWith "lamp") (.leaf 3), .set (FPath.initWith "lamp") (.leaf 4),
          .ackWrite 0] = some repo ∧
      [(FPath.initWith "lamp", .leaf 3)].foldlM
        (fun node write => FNode.updateChild write.1 write.2 node) .emptyNode = .ok server ∧
      [(FPath.initWith "lamp", .leaf 3), (FPath.initWith "lamp", .leaf 4)].foldlM
        (fun node write => FNode.updateChild write.1 write.2 node) .emptyNode = .ok latest ∧
      repo.pendingWriteTree.calculateCompleteEventCacheAtPath FUtilities.literalOrder
        (FPath.initWith "lamp") (some (server.getChild (FPath.initWith "lamp"))) =
        .ok (some cache) ∧
      ∀ place, FNode.leafAt place cache =
        FNode.leafAt place (latest.getChild (FPath.initWith "lamp")) := by
  have hlamp : ∀ key ∈ (FPath.initWith "lamp").segments, key ∈ lampKeys := by decide
  have hsegments : (FPath.initWith "lamp").segments = ["lamp"] := by decide
  obtain ⟨first, hfirst, hsoundFirst, hallFirst⟩ :=
    step_set ordinary_lampKeys sound_start (.leaf 3) hlamp
  obtain ⟨both, hboth, _, hallBoth⟩ := step_set ordinary_lampKeys hsoundFirst (.leaf 4) hlamp
  have hstraddles : ∀ other ∈ [(⟨FPath.initWith "lamp", .overwrite (.leaf 4),
      first.writeIdCounter, true⟩ : FWriteRecord Nat)], ¬other.Straddles
        ⟨FPath.initWith "lamp", .overwrite (.leaf 3), 0, true⟩ :=
    List.forall_mem_singleton.mpr fun hstraddles => hstraddles.1 (List.prefix_refl _)
  have halong : Machine.Along (next FUtilities.literalOrder) (Allowed {key | key ∈ lampKeys}) start
      [.set (FPath.initWith "lamp") (.leaf 3), .set (FPath.initWith "lamp") (.leaf 4),
        .ackWrite 0] := by
    refine ⟨⟨.leaf 3, hlamp⟩, ?_⟩
    simp only [next, hfirst, Except.toOption]
    refine ⟨⟨.leaf 4, hlamp⟩, ?_⟩
    simp only [next, hboth, Except.toOption]
    refine ⟨⟨_, _, ?_, rfl, hstraddles⟩, ?_⟩
    · rw [hallBoth, hallFirst]
      rfl
    · split <;> trivial
  obtain ⟨repo, server, latest, hrun, hserver, hlatest, hcache⟩ :=
    event_cache_issued childKeys_lampKeys halong hlamp FNode.sound_emptyNode
  obtain ⟨updated, hupdated, _, hleaf⟩ :=
    FNode.updateChildAt_eq FNode.sound_emptyNode (.leaf 3) (FPath.initWith "lamp").segments
  have hclear : ClearOf server (FPath.initWith "lamp").segments := by
    have hone : [(FPath.initWith "lamp", .leaf 3)].foldlM
        (fun node write => FNode.updateChild write.1 write.2 node) .emptyNode = .ok server :=
      hserver
    rw [List.foldlM_cons, FNode.updateChild, hupdated] at hone
    obtain rfl : updated = server := Except.ok.inj hone
    intro place hbefore hne
    rw [hsegments] at hbefore hne
    rw [hleaf, hsegments]
    cases place with
    | nil => rfl
    | cons front rest =>
        obtain ⟨rfl, hrest⟩ := List.cons_prefix_cons.mp hbefore
        obtain rfl := List.prefix_nil.mp hrest
        exact absurd rfl hne
  obtain ⟨cache, hcache, hsame⟩ := hcache (List.forall_mem_singleton.mpr hclear)
  exact ⟨repo, server, latest, cache, hrun, hserver, hlatest, hcache, hsame⟩

/-- An update is not shown, though it is pending, where it straddles a set with
all that it writes, and the server has acknowledged the set. -/
theorem straddling_update_not_shown (hord : Ordinary stringComparator K) {setPath : FPath}
    (hnode : node.Sound) (hsetPath : ∀ key ∈ setPath.segments, key ∈ K)
    (hnodes : nodes.Sound K) (hempty : nodes.isEmpty = false)
    (habove : ∃ key rest, setPath.segments = path.segments ++ key :: rest)
    (hbelow : ∀ found ∈ nodes.writeTree.forEach,
      ∃ key rest, (path.child found.1).segments = setPath.segments ++ key :: rest)
    {treePath : FPath} (htreePath : ∀ key ∈ treePath.segments, key ∈ K) {server : FNode V}
    (hserver : server.Sound) :
    ∃ repo cache, Machine.run (next stringComparator) start
        [.set setPath node, .update path nodes, .ackWrite 0] = some repo ∧
      repo.pendingWriteTree.allWrites.map FWriteRecord.writes =
        [nodes.writeTree.forEach.map fun found => (path.child found.1, found.2)] ∧
      repo.pendingWriteTree.calculateCompleteEventCacheAtPath stringComparator treePath
        (some (server.getChild treePath)) = .ok (some cache) ∧
      ∀ place, FNode.leafAt place cache = FNode.leafAt place (server.getChild treePath) := by
  obtain ⟨front, between, habove⟩ := habove
  have hpath : ∀ key ∈ path.segments, key ∈ K := fun key hkey =>
    hsetPath key (habove ▸ List.mem_append_left _ hkey)
  obtain ⟨first, hset, hsoundFirst, hallFirst⟩ := step_set hord sound_start hnode hsetPath
  obtain ⟨both, hupdate, hsoundBoth, hallBoth⟩ :=
    step_update hord hsoundFirst hnodes hpath hempty
  let setRecord : FWriteRecord V := ⟨setPath, .overwrite node, 0, true⟩
  let updateRecord : FWriteRecord V := ⟨path, .merge nodes, first.writeIdCounter, true⟩
  have hall : both.pendingWriteTree.allWrites = [setRecord, updateRecord] := by
    rw [hallBoth, hallFirst]
    rfl
  have hunder : ∀ write ∈ updateRecord.writes,
      ∃ key rest, write.1.segments = setPath.segments ++ key :: rest := by
    intro write hwrite
    obtain ⟨found, hfound, rfl⟩ := List.mem_map.mp hwrite
    exact hbelow found hfound
  -- All that is told is told at or below the place of the set.
  have htold : ∀ place, Told K place → (both.pendingWriteTree.visibleWrites.tells place).isSome →
      setPath.segments <+: place := by
    intro place hplace htells
    rw [hsoundBoth.tree.tells place hplace, hall] at htells
    obtain ⟨other, hother, hbefore⟩ := Layers.isSome_said.mp htells
    obtain ⟨record, hrecord, write, hwrite, rfl⟩ := FWriteTree.mem_layers.mp hother
    refine List.IsPrefix.trans ?_ hbefore
    change _ <+: write.1.segments
    rcases List.mem_pair.mp hrecord with rfl | rfl
    · rw [List.mem_singleton.mp hwrite]
    · obtain ⟨key, rest, hsegments⟩ := hunder write hwrite
      exact hsegments ▸ List.prefix_append _ _
  obtain ⟨visibleWrites, hremoved, hsound, htells⟩ :=
    FCompoundWrite.removeWriteAtPath_all hord hsoundBoth.tree.visibleWrites hsetPath htold
  let tree := { both.pendingWriteTree with visibleWrites, allWrites := [updateRecord] }
  have hack : step stringComparator both (.ackWrite 0) =
      .ok { both with pendingWriteTree := tree } := by
    have hcontains : updateRecord.containsPath setPath = false := by
      rw [← Bool.not_eq_true, FWriteRecord.containsPath_iff]
      rintro ⟨write, hwrite, hbefore⟩
      obtain ⟨key, rest, hsegments⟩ := hunder write hwrite
      have hle := hbefore.length_le
      rw [hsegments, List.length_append, List.length_cons] at hle
      omega
    have hcovers : setPath.contains updateRecord.path = false := by
      rw [← Bool.not_eq_true, FPath.contains_iff]
      intro hbefore
      have hle := hbefore.length_le
      rw [habove, List.length_append, List.length_cons] at hle
      change _ ≤ path.segments.length at hle
      omega
    have hscan : FWriteTree.scanWrites setRecord 0 [(updateRecord, 0)] true false =
        (true, false) := by
      simp [FWriteTree.scanWrites, updateRecord, setRecord, hcontains, hcovers]
    have hindex : [setRecord, updateRecord].findIdx? (fun record => record.writeId = 0) =
        some 0 := by
      simp [setRecord, List.findIdx?_cons]
    have hvisible : setRecord.visible = true := rfl
    have hremove : FWriteTree.removeVisible stringComparator setRecord
        both.pendingWriteTree.visibleWrites = .ok visibleWrites := hremoved
    rw [step, FWriteTree.removeWriteId, hall, hindex]
    simp only [List.getElem?_cons_zero, List.eraseIdx_cons_zero, List.zipIdx_singleton,
      List.reverse_singleton, hvisible, hscan, hremove, bind, Except.bind]
    rfl
  obtain ⟨_, cache, hlatest, hcache, hleaf⟩ := FWriteTree.calculate_eq hord
    (List.forall_mem_nil _) (show tree.visibleWrites.Sound K from hsound) htells htreePath hserver
    (List.forall_mem_nil _)
  cases hlatest
  refine ⟨{ both with pendingWriteTree := tree }, cache, ?_, rfl, hcache, hleaf⟩
  simp only [Machine.run, next, hset, hupdate, hack, Except.toOption, Option.bind_some]

/-- A lamp is cleared and priced by an update from above it, and the price is
not shown once the server has acknowledged that the lamp was cleared. -/
theorem straddling_update_not_shown_of_lamp :
    ∃ (nodes : FCompoundWrite Nat) (repo : FRepo Nat) (cache : FNode Nat),
      FCompoundWrite.addWrite FUtilities.literalOrder (.leaf 7) (FPath.initWith "lamp/price")
        .emptyWrite = .ok nodes ∧
      Machine.run (next FUtilities.literalOrder) start
        [.set (FPath.initWith "lamp") .emptyNode, .update FPath.empty nodes, .ackWrite 0] =
        some repo ∧
      repo.pendingWriteTree.allWrites.map FWriteRecord.writes =
        [nodes.writeTree.forEach.map fun found => (FPath.empty.child found.1, found.2)] ∧
      repo.pendingWriteTree.calculateCompleteEventCacheAtPath FUtilities.literalOrder
        (FPath.initWith "lamp/price")
        (some (FNode.emptyNode.getChild (FPath.initWith "lamp/price"))) = .ok (some cache) ∧
      ∀ place, FNode.leafAt place cache =
        FNode.leafAt place (FNode.emptyNode.getChild (FPath.initWith "lamp/price")) := by
  have hlamp : ∀ key ∈ (FPath.initWith "lamp").segments, key ∈ lampKeys := by decide
  have hprice : ∀ key ∈ (FPath.initWith "lamp/price").segments, key ∈ lampKeys := by decide
  have hsegments : (FPath.initWith "lamp/price").segments =
      (FPath.initWith "lamp").segments ++ ["price"] := by decide
  obtain ⟨nodes, hadded, hsound, hempty, hnodes⟩ :=
    FCompoundWrite.addWrite_emptyWrite ordinary_lampKeys (.leaf 7) hprice
  have hbelow : ∀ found ∈ nodes.writeTree.forEach, ∃ key rest,
      (FPath.empty.child found.1).segments = (FPath.initWith "lamp").segments ++ key :: rest := by
    intro found hfound
    refine ⟨"price", [], ?_⟩
    rw [FPath.segments_child, FPath.segments_empty, List.nil_append, (hnodes found hfound).1,
      hsegments]
  obtain ⟨repo, cache, hrun, hall, hcache, hleaf⟩ :=
    straddling_update_not_shown ordinary_lampKeys FNode.sound_emptyNode hlamp hsound hempty
      ⟨"lamp", [], by decide⟩ hbelow hprice FNode.sound_emptyNode
  exact ⟨nodes, repo, cache, hadded, hrun, hall, hcache, hleaf⟩

end FRepo

end FirebaseDatabase
