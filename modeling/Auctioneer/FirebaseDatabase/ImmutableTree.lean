import Auctioneer.FirebaseDatabase.Comparators
import Auctioneer.FirebaseDatabase.Keys
import Auctioneer.FirebaseDatabase.Path

/-!
The tree in which the client keeps values at paths. Its children are sorted by
`compare:` of the texts, a parameter: of keys that are told apart like by their
code units, nothing else is asked.
-/

namespace FirebaseDatabase

open FUtilities (compareKey)
open SortedList (Ascending)

namespace FUtilities

/-- The order of the code units. -/
def literalOrder (a b : String) : Ordering := compare (units a) (units b)

instance : Std.TransCmp literalOrder where
  eq_swap {a b} := by
    rw [literalOrder, literalOrder]
    exact Std.OrientedCmp.eq_swap
  isLE_trans {a b c} := by
    rw [literalOrder, literalOrder, literalOrder]
    exact Std.TransCmp.isLE_trans

theorem literalOrder_eq_iff {a b : String} : literalOrder a b = .eq ↔ a = b := by
  rw [literalOrder, Std.LawfulEqCmp.compare_eq_iff_eq]
  exact ⟨units_injective, congrArg units⟩

end FUtilities

open FUtilities (literalOrder literalOrder_eq_iff)

/-- Keys that `stringComparator` orders by their code units, that `compareKey`
tells apart, and that are segments of paths. -/
structure Ordinary (stringComparator : String → String → Ordering) (K : Set String) : Prop where
  literal : AgreeOn K stringComparator literalOrder
  distinct : ∀ a ∈ K, ∀ b ∈ K, compareKey a b = .eq → a = b
  segment : ∀ key ∈ K, key ≠ "" ∧ '/' ∉ key.toList

/-- Ordinary keys of children: `.priority`, which the code keeps apart from them,
is not one. -/
structure ChildKeys (stringComparator : String → String → Ordering) (K : Set String) : Prop
    extends Ordinary stringComparator K where
  notPriority : ".priority" ∉ K

/-- A value, unless it is nil, and the trees below it. -/
inductive FImmutableTree (T : Type) where
  | mk (value : Option T) (children : FImmutableSortedDictionary String (FImmutableTree T))

namespace FImmutableTree

variable {T : Type}

def value : FImmutableTree T → Option T
  | mk value _ => value

def children : FImmutableTree T → FImmutableSortedDictionary String (FImmutableTree T)
  | mk _ children => children

def initWithValue (value : Option T) : FImmutableTree T := mk value .dictionaryWithComparator

def empty : FImmutableTree T := initWithValue none

def isEmpty (self : FImmutableTree T) : Bool := self.value.isNone && self.children.count = 0

section Operations

variable (stringComparator : String → String → Ordering)

/-- `findRootMostMatchingPath` of any value, along the segments of a path. -/
def findRootMostValueAndPath : List String → FImmutableTree T → Option (FPath × T)
  | [], self => self.value.map fun value => (FPath.empty, value)
  | front :: rest, self =>
      match self.value with
      | some value => some (FPath.empty, value)
      | none => do
          let child ← self.children.get stringComparator front
          let found ← findRootMostValueAndPath rest child
          some ((FPath.initWith front).child found.1, found.2)

def subtreeAtPath : List String → FImmutableTree T → FImmutableTree T
  | [], self => self
  | front :: rest, self =>
      match self.children.get stringComparator front with
      | some childTree => subtreeAtPath rest childTree
      | none => empty

/-- `setValue:atPath:` along the segments of the path. -/
def setValue (newValue : T) : List String → FImmutableTree T → Except String (FImmutableTree T)
  | [], self => .ok (mk (some newValue) self.children)
  | front :: rest, self => do
      let newChild ← setValue newValue rest ((self.children.get stringComparator front).getD empty)
      let newChildren ← self.children.insertKey stringComparator front newChild
      .ok (mk self.value newChildren)

/-- `setTree:atPath:` along the segments of the path. -/
def setTree (newTree : FImmutableTree T) :
    List String → FImmutableTree T → Except String (FImmutableTree T)
  | [], _ => .ok newTree
  | front :: rest, self => do
      let newChild ← setTree newTree rest ((self.children.get stringComparator front).getD empty)
      let newChildren ←
        if newChild.isEmpty then .ok (self.children.removeKey stringComparator front)
        else self.children.insertKey stringComparator front newChild
      .ok (mk self.value newChildren)

end Operations

/-- The values in the order of `forEach:`, with their paths. -/
def forEachPathSoFar (pathSoFar : FPath) : FImmutableTree T → List (FPath × T)
  | mk value children =>
      (children.entries.attach.flatMap fun entry =>
        forEachPathSoFar (pathSoFar.childFromString entry.1.1) entry.1.2) ++
      (value.map fun value => (pathSoFar, value)).toList
termination_by self => sizeOf self
decreasing_by
  have hlt := FImmutableSortedDictionary.sizeOf_lt_of_mem entry.2
  rw [mk.sizeOf_spec]
  omega

def forEach (self : FImmutableTree T) : List (FPath × T) := self.forEachPathSoFar FPath.empty

theorem forEachPathSoFar_eq (pathSoFar : FPath) (value : Option T)
    (children : FImmutableSortedDictionary String (FImmutableTree T)) :
    forEachPathSoFar pathSoFar (mk value children) =
      (children.entries.flatMap fun entry =>
        forEachPathSoFar (pathSoFar.childFromString entry.1) entry.2) ++
      (value.map fun value => (pathSoFar, value)).toList := by
  rw [forEachPathSoFar]
  rw [List.flatMap_subtype (g := fun entry =>
    forEachPathSoFar (pathSoFar.childFromString entry.1) entry.2) fun _ _ => rfl,
    List.unattach_attach]

/-- The root-most value at or above a place, and what is left of the place. -/
def coverAt : List String → FImmutableTree T → Option (List String × T)
  | place, mk (some value) _ => some (place, value)
  | [], mk none _ => none
  | front :: rest, mk none children => (children.get literalOrder front).bind (coverAt rest)

/-- The keys are in a set, the values have a property, and nothing is below them. -/
inductive Sound (K : Set String) (P : T → Prop) : FImmutableTree T → Prop where
  | mk {value : Option T} {children : FImmutableSortedDictionary String (FImmutableTree T)} :
      FImmutableSortedDictionary.Sound literalOrder children → KeysIn K children.entries →
      (∀ entry ∈ children.entries, Sound K P entry.2) → (∀ found ∈ value, P found) →
      (value.isSome → children.entries = []) → Sound K P (mk value children)

variable {K : Set String} {P : T → Prop} {self newTree newChild : FImmutableTree T}
  {children : FImmutableSortedDictionary String (FImmutableTree T)} {front : String}
  {path place rest : List String} {value : T} {stringComparator : String → String → Ordering}

theorem sound_initWithValue {value : Option T} (h : ∀ found ∈ value, P found) :
    Sound K P (initWithValue value) :=
  .mk ⟨SortedList.ascending_nil, Nat.zero_le _⟩ (List.forall_mem_nil _) (List.forall_mem_nil _) h
    fun _ => rfl

theorem sound_empty : Sound K P (empty : FImmutableTree T) :=
  sound_initWithValue fun _ h => by cases h

@[simp] theorem coverAt_initWithValue (value : T) :
    coverAt place (initWithValue (some value)) = some (place, value) := by
  cases place <;> rfl

@[simp] theorem coverAt_empty : coverAt place (empty : FImmutableTree T) = none := by
  cases place <;> rfl

theorem coverAt_of_isEmpty (h : Sound K P self) (hempty : self.isEmpty = true)
    (place : List String) : coverAt place self = none := by
  cases h with
  | @mk value children hsound _ _ _ _ =>
      cases value with
      | some => cases hempty
      | none =>
          have hnil : children.entries = [] := by
            rw [← List.length_eq_zero_iff, ← FImmutableSortedDictionary.count_eq]
            exact of_decide_eq_true hempty
          cases place with
          | nil => rfl
          | cons front rest =>
              rw [coverAt, FImmutableSortedDictionary.get_eq hsound, hnil]
              rfl

theorem Sound.child {value : Option T} (h : Sound K P (FImmutableTree.mk value children))
    (front : String) : Sound K P ((children.get literalOrder front).getD empty) := by
  cases h with
  | mk hsound _ hall _ _ =>
      rw [FImmutableSortedDictionary.get_eq hsound]
      cases hfind : SortedList.find literalOrder front children.entries with
      | none => exact sound_empty
      | some child =>
          obtain ⟨entry, hmem, _, rfl⟩ := SortedList.exists_mem_of_find hfind
          exact hall entry hmem

theorem Sound.get_eq {value : Option T} (hord : Ordinary stringComparator K)
    (h : Sound K P (FImmutableTree.mk value children)) (hfront : front ∈ K) :
    children.get stringComparator front = children.get literalOrder front := by
  cases h with
  | mk _ hkeys _ _ _ => exact FImmutableSortedDictionary.get_congr hord.literal hfront hkeys

theorem coverAt_cons (front : String) (rest : List String)
    (children : FImmutableSortedDictionary String (FImmutableTree T)) :
    coverAt (front :: rest) (mk none children) =
      coverAt rest ((children.get literalOrder front).getD empty) := by
  rw [coverAt]
  cases children.get literalOrder front with
  | none => exact coverAt_empty.symm
  | some child => rfl

section Reading

/-- The way the source goes down finds the root-most value. -/
theorem findRootMostValueAndPath_eq (hord : Ordinary stringComparator K) (h : Sound K P self)
    (hplace : ∀ key ∈ place, key ∈ K) :
    (coverAt place self = none → findRootMostValueAndPath stringComparator place self = none) ∧
      ∀ rest value, coverAt place self = some (rest, value) →
        ∃ path, findRootMostValueAndPath stringComparator place self = some (path, value) ∧
          path.segments ++ rest = place := by
  induction place generalizing self with
  | nil =>
      cases h with
      | @mk value children =>
          cases value with
          | none => exact ⟨fun _ => rfl, fun _ _ h => by cases h⟩
          | some value => exact ⟨fun h => (by cases h), fun _ _ h => by cases h; exact ⟨_, rfl, rfl⟩⟩
  | cons front rest ih =>
      cases self with
      | mk value children =>
          cases value with
          | some value => exact ⟨fun h => (by cases h), fun _ _ h => by cases h; exact ⟨_, rfl, rfl⟩⟩
          | none =>
              obtain ⟨hfront, hrest⟩ := List.forall_mem_cons.mp hplace
              have hchild := h.child front
              rw [coverAt, findRootMostValueAndPath]
              dsimp only [FImmutableTree.value, FImmutableTree.children]
              rw [h.get_eq hord hfront]
              cases hfound : children.get literalOrder front with
              | none => exact ⟨fun _ => rfl, fun _ _ h => by cases h⟩
              | some child =>
                  rw [hfound, Option.getD_some] at hchild
                  rw [Option.bind_some]
                  obtain ⟨hnone, hsome⟩ := ih hchild hrest
                  refine ⟨fun hcover => ?_, fun below value hcover => ?_⟩
                  · simp [hnone hcover]
                  · obtain ⟨path, hpath, hsegments⟩ := hsome below value hcover
                    refine ⟨(FPath.initWith front).child path, by simp [hpath], ?_⟩
                    rw [FPath.segments_child, FPath.segments_initWith,
                      FPath.pathPieces_key (hord.segment front hfront), List.append_assoc, hsegments]
                    rfl

/-- Below a path with no value at or above it. -/
theorem subtreeAtPath_eq (hord : Ordinary stringComparator K) (h : Sound K P self)
    (hpath : ∀ key ∈ path, key ∈ K) (hnone : coverAt path self = none) :
    Sound K P (subtreeAtPath stringComparator path self) ∧
      ∀ place, coverAt place (subtreeAtPath stringComparator path self) =
        coverAt (path ++ place) self := by
  induction path generalizing self with
  | nil => exact ⟨h, fun _ => rfl⟩
  | cons front rest ih =>
      cases self with
      | mk value children =>
          cases value with
          | some value => cases hnone
          | none =>
              obtain ⟨hfront, hrest⟩ := List.forall_mem_cons.mp hpath
              have hbelow := ih (h.child front) hrest (by rw [← hnone, coverAt_cons])
              rw [subtreeAtPath]
              dsimp only [FImmutableTree.children]
              rw [h.get_eq hord hfront]
              simp only [List.cons_append, coverAt_cons]
              cases hfound : children.get literalOrder front with
              | none => exact ⟨sound_empty, fun place => by simp⟩
              | some child => simpa [hfound] using hbelow

end Reading

section Writing

theorem insertKey_child (hord : Ordinary stringComparator K) (h : Sound K P (mk none children))
    (hfront : front ∈ K) (hnew : Sound K P newChild) :
    ∃ newChildren, children.insertKey stringComparator front newChild = .ok newChildren ∧
      Sound K P (mk none newChildren) ∧
      ∀ key, newChildren.get literalOrder key =
        if key = front then some newChild else children.get literalOrder key := by
  cases h with
  | mk hsound hkeys hall _ _ =>
      obtain ⟨newChildren, pick, hinsert, hpick, hentries, hsound'⟩ :=
        FImmutableSortedDictionary.insertKey_eq hsound front newChild
      refine ⟨newChildren, ?_, .mk hsound' ?_ ?_ (fun _ h => by cases h) (fun h => by cases h),
        fun key => ?_⟩
      · rw [FImmutableSortedDictionary.insertKey_congr hord.literal hfront hkeys, hinsert]
      · rw [hentries]
        intro entry hentry
        rcases SortedList.mem_of_mem_insert hpick hentry with heq | hold
        · exact (literalOrder_eq_iff.mp heq).symm ▸ hfront
        · exact hkeys entry hold
      · rw [hentries]
        intro entry hentry
        rcases SortedList.value_of_mem_insert hentry with heq | hold
        · exact heq ▸ hnew
        · exact hall entry hold
      · rw [FImmutableSortedDictionary.get_eq hsound', hentries,
          SortedList.find_insert hpick hsound.ascending, FImmutableSortedDictionary.get_eq hsound]
        exact if_congr literalOrder_eq_iff rfl rfl

theorem removeKey_child (hord : Ordinary stringComparator K) (h : Sound K P (mk none children))
    (hfront : front ∈ K) :
    Sound K P (mk none (children.removeKey stringComparator front)) ∧
      ∀ key, (children.removeKey stringComparator front).get literalOrder key =
        if key = front then none else children.get literalOrder key := by
  cases h with
  | mk hsound hkeys hall _ _ =>
      obtain ⟨hentries, hsound'⟩ := FImmutableSortedDictionary.removeKey_eq hsound front
      rw [FImmutableSortedDictionary.removeKey_congr hord.literal hfront hkeys]
      refine ⟨.mk hsound' ?_ ?_ (fun _ h => by cases h) (fun h => by cases h), fun key => ?_⟩
      · rw [hentries]
        exact fun entry hentry => hkeys entry (SortedList.erase_sublist.mem hentry)
      · rw [hentries]
        exact fun entry hentry => hall entry (SortedList.erase_sublist.mem hentry)
      · rw [FImmutableSortedDictionary.get_eq hsound', hentries,
          SortedList.find_erase hsound.ascending, FImmutableSortedDictionary.get_eq hsound]
        exact if_congr literalOrder_eq_iff rfl rfl

/-- One step down: what a place is covered by once the child under a key is new. -/
theorem coverAt_step {newChildren : FImmutableSortedDictionary String (FImmutableTree T)}
    {found : Option (FImmutableTree T)}
    (hget : ∀ key, newChildren.get literalOrder key =
      if key = front then found else children.get literalOrder key)
    (hfound : ∀ place, coverAt place (found.getD empty) =
      if rest <+: place then coverAt (place.drop rest.length) newTree
      else coverAt place ((children.get literalOrder front).getD empty)) (place : List String) :
    coverAt place (mk none newChildren) =
      if front :: rest <+: place then coverAt (place.drop (front :: rest).length) newTree
      else coverAt place (mk none children) := by
  cases place with
  | nil => simp [coverAt]
  | cons front' rest' =>
      rw [coverAt_cons, coverAt_cons, hget, List.length_cons, List.drop_succ_cons]
      by_cases heq : front' = front
      · rw [if_pos heq, hfound, heq]
        simp
      · rw [if_neg heq, if_neg (by simp [List.cons_prefix_cons, Ne.symm heq])]

/-- A tree is put at a path with no value above it. -/
theorem setTree_eq (hord : Ordinary stringComparator K) (h : Sound K P self)
    (hnew : Sound K P newTree) (hpath : ∀ key ∈ path, key ∈ K)
    (hfree : ∀ rest value, coverAt path self = some (rest, value) → rest = []) :
    ∃ tree, setTree stringComparator newTree path self = .ok tree ∧ Sound K P tree ∧
      ∀ place, coverAt place tree =
        if path <+: place then coverAt (place.drop path.length) newTree else coverAt place self := by
  induction path generalizing self with
  | nil => exact ⟨newTree, rfl, hnew, fun place => by simp⟩
  | cons front rest ih =>
      cases self with
      | mk value children =>
          cases value with
          | some value => cases hfree (front :: rest) value rfl
          | none =>
              obtain ⟨hfront, hrest⟩ := List.forall_mem_cons.mp hpath
              obtain ⟨newChild, hchild, hsound, hcover⟩ := ih (h.child front) hrest
                fun below value hbelow => hfree below value (by rw [coverAt_cons, hbelow])
              rw [setTree]
              dsimp only [FImmutableTree.children, FImmutableTree.value]
              rw [h.get_eq hord hfront, hchild]
              simp only [bind, Except.bind]
              cases hempty : newChild.isEmpty with
              | true =>
                  obtain ⟨hsound', hget⟩ := removeKey_child hord h hfront
                  refine ⟨_, rfl, hsound', coverAt_step hget fun place => ?_⟩
                  rw [← hcover, coverAt_of_isEmpty hsound hempty]
                  exact coverAt_empty
              | false =>
                  obtain ⟨newChildren, hinsert, hsound', hget⟩ :=
                    insertKey_child hord h hfront hsound
                  exact ⟨_, by rw [if_neg Bool.false_ne_true, hinsert], hsound',
                    coverAt_step hget hcover⟩

/-- The value at a path is replaced. -/
theorem setValue_eq (hord : Ordinary stringComparator K) (h : Sound K P self) {newValue : T}
    (hnew : P newValue) (hpath : ∀ key ∈ path, key ∈ K)
    (hroot : coverAt path self = some ([], value)) :
    ∃ tree, setValue stringComparator newValue path self = .ok tree ∧ Sound K P tree ∧
      ∀ place, coverAt place tree =
        if path <+: place then some (place.drop path.length, newValue) else coverAt place self := by
  induction path generalizing self with
  | nil =>
      cases self with
      | mk old children =>
          cases old with
          | none => cases hroot
          | some old =>
              refine ⟨_, rfl, ?_, fun place => ?_⟩
              · cases h with
                | mk hsound hkeys hall _ hleaf =>
                    exact .mk hsound hkeys hall (fun found hfound => by cases hfound; exact hnew)
                      fun _ => hleaf rfl
              · cases place <;> rfl
  | cons front rest ih =>
      cases self with
      | mk old children =>
          cases old with
          | some old => cases hroot
          | none =>
              obtain ⟨hfront, hrest⟩ := List.forall_mem_cons.mp hpath
              obtain ⟨newChild, hchild, hsound, hcover⟩ := ih (h.child front) hrest
                (by rw [← hroot, coverAt_cons])
              obtain ⟨newChildren, hinsert, hsound', hget⟩ := insertKey_child hord h hfront hsound
              refine ⟨mk none newChildren, ?_, hsound', fun place => ?_⟩
              · rw [setValue]
                dsimp only [FImmutableTree.children, FImmutableTree.value]
                rw [h.get_eq hord hfront, hchild]
                simp only [bind, Except.bind, hinsert]
              · have hstep := @coverAt_step T (initWithValue (some newValue)) children front rest
                  newChildren (some newChild) hget (fun place => by
                    rw [coverAt_initWithValue]
                    exact hcover place) place
                rw [hstep, coverAt_initWithValue]

end Writing

section Values

theorem coverAt_append (h : coverAt place self = some (rest, value)) (below : List String) :
    coverAt (place ++ below) self = some (rest ++ below, value) := by
  induction place generalizing self with
  | nil =>
      cases self with
      | mk old children =>
          cases old with
          | none => cases h
          | some old =>
              obtain ⟨rfl, rfl⟩ : [] = rest ∧ old = value := by simpa [coverAt] using h
              cases below <;> rfl
  | cons front rest' ih =>
      cases self with
      | mk old children =>
          cases old with
          | some old =>
              obtain ⟨rfl, rfl⟩ : front :: rest' = rest ∧ old = value := by simpa [coverAt] using h
              rfl
          | none =>
              rw [coverAt_cons] at h
              rw [List.cons_append, coverAt_cons]
              exact ih h

/-- What covers a place is a value at a path on the way to it. -/
theorem coverAt_split (h : coverAt place self = some (rest, value)) :
    ∃ path, path ++ rest = place ∧ coverAt path self = some ([], value) := by
  induction place generalizing self with
  | nil =>
      cases self with
      | mk old children =>
          cases old with
          | none => cases h
          | some old =>
              obtain ⟨rfl, rfl⟩ : [] = rest ∧ old = value := by simpa [coverAt] using h
              exact ⟨[], rfl, rfl⟩
  | cons front rest' ih =>
      cases self with
      | mk old children =>
          cases old with
          | some old =>
              obtain ⟨rfl, rfl⟩ : front :: rest' = rest ∧ old = value := by simpa [coverAt] using h
              exact ⟨[], rfl, rfl⟩
          | none =>
              rw [coverAt_cons] at h
              obtain ⟨path, rfl, hpath⟩ := ih h
              exact ⟨front :: path, rfl, by rw [coverAt_cons, hpath]⟩

/-- No value is below another. -/
theorem coverAt_unique (h : coverAt path self = some ([], value)) {path' : List String} {value' : T}
    (h' : coverAt path' self = some ([], value')) (hbefore : path <+: path') :
    path = path' ∧ value = value' := by
  obtain ⟨below, rfl⟩ := hbefore
  have hcover := coverAt_append h below
  rw [h', List.nil_append] at hcover
  obtain ⟨rfl, rfl⟩ : [] = below ∧ value' = value := by simpa using hcover
  exact ⟨(List.append_nil path).symm, rfl⟩

theorem mem_forEachPathSoFar (hord : Ordinary stringComparator K) (h : Sound K P self)
    {pathSoFar : FPath} {found : FPath × T} (hfound : found ∈ forEachPathSoFar pathSoFar self) :
    P found.2 ∧ ∃ path, (∀ key ∈ path, key ∈ K) ∧ found.1.segments = pathSoFar.segments ++ path ∧
      coverAt path self = some ([], found.2) := by
  induction h generalizing pathSoFar with
  | @mk value children hsound hkeys hall hvalue hleaf ih =>
      rw [forEachPathSoFar_eq] at hfound
      cases value with
      | some value =>
          rw [hleaf rfl] at hfound
          obtain rfl : found = (pathSoFar, value) := by simpa using hfound
          exact ⟨hvalue value rfl, [], List.forall_mem_nil _, by simp, rfl⟩
      | none =>
          obtain ⟨entry, hentry, hbelow⟩ : ∃ entry ∈ children.entries,
              found ∈ forEachPathSoFar (pathSoFar.childFromString entry.1) entry.2 := by
            simpa using hfound
          obtain ⟨hP, path, hpath, hsegments, hcover⟩ := ih entry hentry hbelow
          have hfront := hkeys entry hentry
          refine ⟨hP, entry.1 :: path, List.forall_mem_cons.mpr ⟨hfront, hpath⟩, ?_, ?_⟩
          · rw [hsegments, FPath.segments_childFromString,
              FPath.pathPieces_key (hord.segment entry.1 hfront), List.append_assoc,
              List.singleton_append]
          · rw [coverAt_cons, FImmutableSortedDictionary.get_eq hsound,
              SortedList.find_of_mem hsound.ascending hentry]
            exact hcover

theorem exists_mem_forEachPathSoFar (hord : Ordinary stringComparator K) (h : Sound K P self)
    (pathSoFar : FPath) (hcover : coverAt path self = some ([], value)) :
    ∃ found ∈ forEachPathSoFar pathSoFar self,
      found.1.segments = pathSoFar.segments ++ path ∧ found.2 = value := by
  induction h generalizing pathSoFar path with
  | @mk old children hsound hkeys hall hvalue hleaf ih =>
      rw [forEachPathSoFar_eq]
      cases old with
      | some old =>
          obtain ⟨rfl, rfl⟩ : path = [] ∧ old = value := by simpa [coverAt] using hcover
          exact ⟨(pathSoFar, old), by simp, by simp, rfl⟩
      | none =>
          cases path with
          | nil => cases hcover
          | cons front rest =>
              rw [coverAt, FImmutableSortedDictionary.get_eq hsound] at hcover
              obtain ⟨child, hfind, hbelow⟩ := Option.bind_eq_some_iff.mp hcover
              obtain ⟨entry, hentry, heq, rfl⟩ := SortedList.exists_mem_of_find hfind
              obtain rfl := literalOrder_eq_iff.mp heq
              obtain ⟨found, hfound, hsegments, hsame⟩ :=
                ih entry hentry (pathSoFar.childFromString entry.1) hbelow
              refine ⟨found, by simpa using ⟨_, _, hentry, hfound⟩, ?_, hsame⟩
              rw [hsegments, FPath.segments_childFromString,
                FPath.pathPieces_key (hord.segment entry.1 (hkeys entry hentry)), List.append_assoc,
                List.singleton_append]

/-- The values of the tree are what covers their paths and all below. -/
theorem mem_forEach (hord : Ordinary stringComparator K) (h : Sound K P self) {found : FPath × T}
    (hfound : found ∈ self.forEach) :
    P found.2 ∧ (∀ key ∈ found.1.segments, key ∈ K) ∧
      coverAt found.1.segments self = some ([], found.2) := by
  obtain ⟨hP, path, hpath, hsegments, hcover⟩ := mem_forEachPathSoFar hord h hfound
  obtain rfl : found.1.segments = path := hsegments
  exact ⟨hP, hpath, hcover⟩

theorem exists_mem_forEach (hord : Ordinary stringComparator K) (h : Sound K P self)
    (hcover : coverAt place self = some (rest, value)) :
    ∃ found ∈ self.forEach, found.1.segments ++ rest = place ∧ found.2 = value := by
  obtain ⟨path, rfl, hpath⟩ := coverAt_split hcover
  obtain ⟨found, hfound, hsegments, hsame⟩ :=
    exists_mem_forEachPathSoFar hord h FPath.empty hpath
  exact ⟨found, hfound, by rw [hsegments]; rfl, hsame⟩

end Values

end FImmutableTree

end FirebaseDatabase
