import Mathlib.Data.List.Infix

/-!
Paths into the tree of the database. A path is an array of keys and how many of
them have been popped off its front.
-/

namespace FirebaseDatabase

/-- The pieces that `componentsSeparatedByString:` leaves once the empty ones are
dropped. -/
def pathPieces (path : String) : List String :=
  ((path.toList.splitOn '/').map String.ofList).filter fun piece => !piece.isEmpty

structure FPath where
  pieces : List String
  pieceNum : Nat
deriving Repr

namespace FPath

variable (self : FPath)

/-- The pieces that the loops from `pieceNum` run over. -/
def segments : List String := self.pieces.drop self.pieceNum

def initWith (path : String) : FPath := ⟨pathPieces path, 0⟩

def pathWithString (string : String) : FPath := initWith string

def getFront : Option String :=
  if self.pieces.length ≤ self.pieceNum then none else self.pieces[self.pieceNum]?

def length : Nat := self.pieces.length - self.pieceNum

def popFront : FPath :=
  { self with
    pieceNum := if self.pieceNum < self.pieces.length then self.pieceNum + 1 else self.pieceNum }

def isEmpty : Bool := self.pieces.length ≤ self.pieceNum

def toStringWithTrailingSlash (trailingSlash : Bool) : String :=
  let pathString := self.segments.foldl (fun pathString piece => pathString ++ "/" ++ piece) ""
  if pathString.isEmpty then "/"
  else if trailingSlash then pathString ++ "/"
  else pathString

def toString : String := self.toStringWithTrailingSlash false

def wireFormat : String :=
  if self.isEmpty then "/"
  else
    match self.segments with
    | [] => ""
    | piece :: pieces => pieces.foldl (fun pathString piece => pathString ++ "/" ++ piece) piece

def parent : Option FPath :=
  if self.pieces.length ≤ self.pieceNum then none else some ⟨self.segments.dropLast, 0⟩

def child (childPathObj : FPath) : FPath := ⟨self.segments ++ childPathObj.segments, 0⟩

def childFromString (childPath : String) : FPath := ⟨self.segments ++ pathPieces childPath, 0⟩

def empty : FPath := initWith ""

/-- The loop of `contains:`. -/
def containsFrom : List String → List String → Bool
  | [], _ => true
  | _ :: _, [] => false
  | thisSeg :: rest, otherSeg :: rest' => thisSeg = otherSeg && containsFrom rest rest'

def contains (other : FPath) : Bool :=
  if other.length < self.length then false else containsFrom self.segments other.segments

def isEqual (other : FPath) : Bool := self.segments = other.segments

theorem length_eq : self.length = self.segments.length := by
  rw [length, segments, List.length_drop]

theorem isEmpty_eq : self.isEmpty = self.segments.isEmpty := by
  rw [isEmpty, segments, Bool.eq_iff_iff, decide_eq_true_eq, List.isEmpty_iff,
    List.drop_eq_nil_iff]

theorem getFront_eq : self.getFront = self.segments.head? := by
  rw [getFront, segments, List.head?_drop]
  split
  · next h => exact (List.getElem?_eq_none h).symm
  · rfl

theorem segments_popFront : self.popFront.segments = self.segments.tail := by
  rw [popFront, segments, segments, List.tail_drop]
  dsimp only
  split
  · rfl
  · next h => rw [List.drop_eq_nil_iff.mpr (by omega), List.drop_eq_nil_iff.mpr (by omega)]

/-- What the path of an `FPath` inside another is. Where the one is not in the
other, the paths named are what is left of them. -/
def relativePathFrom (outer inner : FPath) : Except String FPath :=
  match _h : outer.getFront with
  | none => .ok inner
  | some outerFront =>
      if some outerFront = inner.getFront then relativePathFrom outer.popFront inner.popFront
      else
        .error ("innerPath (" ++ inner.toString ++ ") is not within outerPath (" ++
          outer.toString ++ ")")
termination_by outer.length
decreasing_by
  rw [getFront_eq] at _h
  rw [length_eq, length_eq, segments_popFront, List.length_tail]
  have hpos : 0 < outer.segments.length := by
    rw [List.length_pos_iff]
    intro hnil
    rw [hnil] at _h
    cases _h
  omega

@[simp] theorem segments_initWith (path : String) : (initWith path).segments = pathPieces path := rfl

@[simp] theorem segments_empty : empty.segments = [] := by decide

@[simp] theorem segments_child (childPathObj : FPath) :
    (self.child childPathObj).segments = self.segments ++ childPathObj.segments := rfl

@[simp] theorem segments_childFromString (childPath : String) :
    (self.childFromString childPath).segments = self.segments ++ pathPieces childPath := rfl

theorem isEqual_iff (other : FPath) : self.isEqual other = true ↔ self.segments = other.segments :=
  decide_eq_true_iff

section Order

theorem containsFrom_iff (segments segments' : List String) :
    containsFrom segments segments' = true ↔ segments <+: segments' := by
  induction segments generalizing segments' with
  | nil => simp [containsFrom]
  | cons thisSeg rest ih =>
      cases segments' with
      | nil => simp [containsFrom]
      | cons otherSeg rest' => simp [containsFrom, ih, List.cons_prefix_cons]

/-- A path contains the ones that it is the front of. -/
theorem contains_iff (other : FPath) :
    self.contains other = true ↔ self.segments <+: other.segments := by
  rw [contains, length_eq, length_eq]
  split
  · next h =>
    refine ⟨fun hfalse => absurd hfalse Bool.false_ne_true, fun hprefix => ?_⟩
    have hle := hprefix.length_le
    omega
  · exact containsFrom_iff _ _

theorem relativePathFrom_nil {outer : FPath} (h : outer.segments = []) (inner : FPath) :
    relativePathFrom outer inner = .ok inner := by
  have hfront : outer.getFront = none := by rw [getFront_eq, h, List.head?_nil]
  unfold relativePathFrom
  split
  · rfl
  · next hsome => rw [hfront] at hsome; cases hsome

theorem relativePathFrom_cons {outer : FPath} {front : String} {rest : List String}
    (h : outer.segments = front :: rest) (inner : FPath) :
    relativePathFrom outer inner =
      if some front = inner.getFront then relativePathFrom outer.popFront inner.popFront
      else .error ("innerPath (" ++ inner.toString ++ ") is not within outerPath (" ++
        outer.toString ++ ")") := by
  have hfront : outer.getFront = some front := by rw [getFront_eq, h, List.head?_cons]
  conv_lhs => unfold relativePathFrom
  split
  · next hnone => rw [hfront] at hnone; cases hnone
  · next found hsome =>
    obtain rfl := Option.some.inj (hfront.symm.trans hsome)
    rfl

/-- What is left of a path that another is the front of. -/
theorem relativePathFrom_append {outer inner : FPath} {rest : List String}
    (h : inner.segments = outer.segments ++ rest) :
    ∃ relative, relativePathFrom outer inner = .ok relative ∧ relative.segments = rest := by
  induction hsegments : outer.segments generalizing outer inner with
  | nil => exact ⟨inner, relativePathFrom_nil hsegments inner, by rw [h, hsegments, List.nil_append]⟩
  | cons front rest' ih =>
      rw [hsegments, List.cons_append] at h
      rw [relativePathFrom_cons hsegments, if_pos (by rw [getFront_eq, h, List.head?_cons])]
      have hpop : outer.popFront.segments = rest' := by
        rw [segments_popFront, hsegments, List.tail_cons]
      exact ih (by rw [segments_popFront, h, List.tail_cons, hpop]) hpop

/-- A path in another is what is left of it. Of one that is not, the error names
what is left of the two after their common front, not the two. -/
theorem relativePathFrom_spec (outer inner : FPath) :
    (outer.contains inner = true → ∃ relative, relativePathFrom outer inner = .ok relative ∧
      (outer.child relative).isEqual inner = true) ∧
    (outer.contains inner = false → ∃ (common : List String) (outer' inner' : FPath),
      outer.segments = common ++ outer'.segments ∧ inner.segments = common ++ inner'.segments ∧
      outer'.getFront ≠ none ∧ outer'.getFront ≠ inner'.getFront ∧
      relativePathFrom outer inner =
        .error ("innerPath (" ++ inner'.toString ++ ") is not within outerPath (" ++
          outer'.toString ++ ")")) := by
  rw [← Bool.not_eq_true, contains_iff]
  simp only [isEqual_iff, segments_child]
  induction hlength : outer.segments.length generalizing outer inner with
  | zero =>
      have hnil := List.length_eq_zero_iff.mp hlength
      refine ⟨fun _ => ⟨inner, relativePathFrom_nil hnil inner, by rw [hnil, List.nil_append]⟩,
        fun hnot => ?_⟩
      exact absurd (hnil ▸ List.nil_prefix) hnot
  | succ length ih =>
      obtain ⟨front, rest, hsegments⟩ := List.exists_cons_of_length_eq_add_one hlength
      have hfront : outer.getFront = some front := by rw [getFront_eq, hsegments, List.head?_cons]
      have hstep := relativePathFrom_cons hsegments inner
      by_cases hsame : some front = inner.getFront
      · obtain ⟨rest', hinner⟩ : ∃ rest', inner.segments = front :: rest' := by
          rw [getFront_eq] at hsame
          exact List.head?_eq_some_iff.mp hsame.symm
        have hpop : outer.popFront.segments = rest := by rw [segments_popFront, hsegments, List.tail_cons]
        have hpop' : inner.popFront.segments = rest' := by rw [segments_popFront, hinner, List.tail_cons]
        obtain ⟨hok, herror⟩ := ih outer.popFront inner.popFront (by
          rw [hpop]
          simpa [hsegments] using hlength)
        rw [hpop, hpop'] at hok herror
        rw [hstep, if_pos hsame, hsegments, hinner, List.cons_prefix_cons]
        refine ⟨fun hprefix => ?_, fun hnot => ?_⟩
        · obtain ⟨relative, hrelative, heq⟩ := hok hprefix.2
          exact ⟨relative, hrelative, by rw [List.cons_append, heq]⟩
        · obtain ⟨common, outer', inner', houter, hinner', hdiffer⟩ :=
            herror fun hprefix => hnot ⟨rfl, hprefix⟩
          exact ⟨front :: common, outer', inner', by rw [houter, List.cons_append],
            by rw [hinner', List.cons_append], hdiffer⟩
      · rw [hstep, if_neg hsame]
        refine ⟨fun hprefix => ?_, fun _ => ⟨[], outer, inner, rfl, rfl, ?_, ?_, rfl⟩⟩
        · rw [hsegments] at hprefix
          obtain ⟨tail, htail⟩ := hprefix
          rw [getFront_eq, ← htail] at hsame
          exact absurd rfl hsame
        · rw [hfront]
          exact Option.some_ne_none front
        · rwa [hfront]

end Order

section RoundTrip

/-- What `pathPieces` makes: keys, with no slash in them. -/
def Keys (pieces : List String) : Prop := ∀ piece ∈ pieces, piece ≠ "" ∧ '/' ∉ piece.toList

theorem not_mem_of_mem_splitOn {α : Type*} [BEq α] [LawfulBEq α] {a : α} {l part : List α}
    (h : part ∈ l.splitOn a) : a ∉ part := by
  induction l generalizing part with
  | nil =>
      rw [List.splitOn_nil, List.mem_singleton] at h
      simp [h]
  | cons x l ih =>
      rw [List.splitOn_cons_eq_if_modifyHead] at h
      split at h
      · rcases List.mem_cons.mp h with rfl | hmem
        · simp
        · exact ih hmem
      · next hne =>
        cases hsplit : l.splitOn a with
        | nil => exact absurd hsplit (List.splitOn_ne_nil a l)
        | cons first rest =>
            rw [hsplit, List.modifyHead_cons] at h
            rcases List.mem_cons.mp h with rfl | hmem
            · have hfirst := ih (hsplit ▸ List.mem_cons_self)
              simp only [List.mem_cons, not_or]
              exact ⟨fun heq => hne (beq_iff_eq.mpr heq.symm), hfirst⟩
            · exact ih (hsplit ▸ List.mem_cons_of_mem _ hmem)

theorem keys_pathPieces (path : String) : Keys (pathPieces path) := by
  intro piece hpiece
  obtain ⟨hmem, hne⟩ := List.mem_filter.mp hpiece
  obtain ⟨part, hpart, rfl⟩ := List.mem_map.mp hmem
  refine ⟨by rintro heq; simp [heq] at hne, ?_⟩
  rw [String.toList_ofList]
  exact not_mem_of_mem_splitOn hpart

@[simp] theorem pathPieces_empty : pathPieces "" = [] := by decide

/-- A slash parts the pieces. -/
theorem pathPieces_slash (path path' : String) :
    pathPieces (path ++ "/" ++ path') = pathPieces path ++ pathPieces path' := by
  have htoList : (path ++ "/" ++ path').toList = path.toList ++ '/' :: path'.toList := by simp
  rw [pathPieces, htoList, List.splitOn_append_cons_self, List.map_append, List.filter_append]
  rfl

theorem pathPieces_key {piece : String} (h : piece ≠ "" ∧ '/' ∉ piece.toList) :
    pathPieces piece = [piece] := by
  rw [pathPieces, List.splitOn_eq_singleton h.2]
  simp [h.1]

/-- The pieces that the loops join are read back. -/
theorem pathPieces_foldl {pieces : List String} (h : Keys pieces) (start : String) :
    pathPieces (pieces.foldl (fun pathString piece => pathString ++ "/" ++ piece) start) =
      pathPieces start ++ pieces := by
  induction pieces generalizing start with
  | nil => simp
  | cons piece pieces ih =>
      obtain ⟨hpiece, hpieces⟩ := List.forall_mem_cons.mp h
      rw [List.foldl_cons, ih hpieces, pathPieces_slash, pathPieces_key hpiece,
        List.append_assoc, List.singleton_append]

/-- The paths that the client makes. -/
inductive Built : FPath → Prop where
  | initWith (path : String) : Built (initWith path)
  | popFront {path : FPath} : Built path → Built path.popFront
  | parent {path up : FPath} : Built path → path.parent = some up → Built up
  | child {path childPathObj : FPath} : Built path → Built childPathObj →
      Built (path.child childPathObj)
  | childFromString {path : FPath} (childPath : String) : Built path →
      Built (path.childFromString childPath)

theorem Built.keys {path : FPath} (h : Built path) : Keys path.segments := by
  induction h with
  | initWith path => exact keys_pathPieces path
  | @popFront path _ ih =>
      intro piece hpiece
      rw [segments_popFront] at hpiece
      exact ih piece (List.mem_of_mem_tail hpiece)
  | @parent path up _ hup ih =>
      rw [FPath.parent, Option.ite_none_left_eq_some, Option.some.injEq] at hup
      obtain ⟨_, rfl⟩ := hup
      exact fun piece hpiece => ih piece (List.mem_of_mem_dropLast hpiece)
  | child _ _ ih ih' =>
      intro piece hpiece
      rcases List.mem_append.mp hpiece with hmem | hmem
      · exact ih piece hmem
      · exact ih' piece hmem
  | childFromString childPath _ ih =>
      intro piece hpiece
      rcases List.mem_append.mp hpiece with hmem | hmem
      · exact ih piece hmem
      · exact keys_pathPieces childPath piece hmem

theorem pathPieces_toStringWithTrailingSlash {path : FPath} (h : Keys path.segments)
    (trailingSlash : Bool) :
    pathPieces (path.toStringWithTrailingSlash trailingSlash) = path.segments := by
  have hslash : pathPieces "/" = [] := by decide
  have hjoined := pathPieces_foldl h ""
  rw [toStringWithTrailingSlash]
  generalize path.segments.foldl (fun pathString piece => pathString ++ "/" ++ piece) "" = joined
    at hjoined ⊢
  rw [pathPieces_empty, List.nil_append] at hjoined
  split
  · next hempty =>
    rw [String.isEmpty_iff] at hempty
    rw [hslash, ← hjoined, hempty, pathPieces_empty]
  · split
    · have htrailing := pathPieces_slash joined ""
      rwa [String.append_empty, pathPieces_empty, List.append_nil, hjoined] at htrailing
    · exact hjoined

theorem pathPieces_wireFormat {path : FPath} (h : Keys path.segments) :
    pathPieces path.wireFormat = path.segments := by
  have hslash : pathPieces "/" = [] := by decide
  rw [wireFormat, isEmpty_eq]
  cases hsegments : path.segments with
  | nil => simpa using hslash
  | cons piece pieces =>
      obtain ⟨hpiece, hpieces⟩ := List.forall_mem_cons.mp (hsegments ▸ h)
      simp only [List.isEmpty_cons, Bool.false_eq_true, if_false]
      rw [pathPieces_foldl hpieces, pathPieces_key hpiece, List.singleton_append]

/-- The texts of a path are read back as that path, and tell it from the others. -/
theorem round_trip {path path' : FPath} (h : Built path) (h' : Built path') :
    (pathWithString path.toString).isEqual path = true ∧
      (pathWithString (path.toStringWithTrailingSlash true)).isEqual path = true ∧
      (pathWithString path.wireFormat).isEqual path = true ∧
      (path.isEqual path' = true ↔ path.toString = path'.toString) ∧
      (path.isEqual path' = true ↔ path.wireFormat = path'.wireFormat) := by
  simp only [isEqual_iff, pathWithString, segments_initWith]
  have hread := pathPieces_toStringWithTrailingSlash h.keys
  have hread' := pathPieces_toStringWithTrailingSlash h'.keys
  have hwire := pathPieces_wireFormat h.keys
  have hwire' := pathPieces_wireFormat h'.keys
  refine ⟨hread false, hread true, hwire, ⟨fun hsame => ?_, fun hsame => ?_⟩,
    ⟨fun hsame => ?_, fun hsame => ?_⟩⟩
  · rw [toString, toString, toStringWithTrailingSlash, toStringWithTrailingSlash, hsame]
  · rw [toString, toString] at hsame
    rw [← hread false, hsame, hread' false]
  · rw [wireFormat, wireFormat, isEmpty_eq, isEmpty_eq, hsame]
  · rw [← hwire, hsame, hwire']

theorem round_trip_of_products :
    (pathWithString ((initWith "Products/-Mh//bid").popFront).toString).isEqual
        ((initWith "Products/-Mh//bid").popFront) = true ∧
      (pathWithString (((initWith "Products/-Mh//bid").popFront).toStringWithTrailingSlash
        true)).isEqual ((initWith "Products/-Mh//bid").popFront) = true ∧
      (pathWithString ((initWith "Products/-Mh//bid").popFront).wireFormat).isEqual
        ((initWith "Products/-Mh//bid").popFront) = true ∧
      (((initWith "Products/-Mh//bid").popFront).isEqual
          ((initWith "-Mh").childFromString "bid") = true ↔
        ((initWith "Products/-Mh//bid").popFront).toString =
          ((initWith "-Mh").childFromString "bid").toString) ∧
      (((initWith "Products/-Mh//bid").popFront).isEqual
          ((initWith "-Mh").childFromString "bid") = true ↔
        ((initWith "Products/-Mh//bid").popFront).wireFormat =
          ((initWith "-Mh").childFromString "bid").wireFormat) :=
  round_trip (.popFront (.initWith _)) (.childFromString _ (.initWith _))

end RoundTrip

end FPath

end FirebaseDatabase
