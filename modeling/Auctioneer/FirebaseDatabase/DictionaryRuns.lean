import Auctioneer.FirebaseDatabase.Dictionary

/-!
What a dictionary holds and answers after any sequence of insertions and
removals, and what its tree then looks like.
-/

namespace FirebaseDatabase

open SortedList (Ascending)

variable {κ ν : Type*} {cmp : κ → κ → Ordering} {key aKey : κ} {value aValue : ν}

/-- The entries ascend. A tree is balanced, with a black root. -/
def FImmutableSortedDictionary.Sound (cmp : κ → κ → Ordering) :
    FImmutableSortedDictionary κ ν → Prop
  | .array self =>
      Ascending cmp self.entries ∧ self.entries.length ≤ arrayToTreeSizeThreshold
  | .tree self =>
      Ascending cmp self.root.entries ∧ ∃ height, FLLRBNode.Balanced self.root .black height

namespace FImmutableSortedDictionary

variable {d d' : FImmutableSortedDictionary κ ν}

theorem Sound.ascending (h : Sound cmp d) : Ascending cmp d.entries := by
  cases d with
  | array => exact h.1
  | tree => exact h.1

theorem count_eq : d.count = d.entries.length := by
  cases d with
  | array => rfl
  | tree self =>
      change self.root.count = self.root.entries.length
      induction self.root with
      | empty => rfl
      | node color left key value right ihleft ihright =>
          rw [FLLRBNode.count, FLLRBNode.entries, ihleft, ihright, List.length_append,
            List.length_cons]
          omega

theorem minKey_eq : d.minKey = d.entries.head?.map Prod.fst := by
  cases d with
  | array => rfl
  | tree self => exact FirebaseDatabase.minKey_eq

theorem maxKey_eq : d.maxKey = d.entries.getLast?.map Prod.fst := by
  cases d with
  | array => rfl
  | tree self => exact FirebaseDatabase.maxKey_eq

theorem contains_eq : d.contains cmp key = (d.get cmp key).isSome := by
  cases d with
  | tree self => rfl
  | array self =>
      rw [contains, FArraySortedDictionary.contains, get, FArraySortedDictionary.get]
      rcases self.findKey_cases key with ⟨hfind, _⟩ | ⟨before, old, after, hsplit, _, hfind⟩
      · rw [hfind]
        rfl
      · rw [hfind, hsplit]
        simp

section Step

variable [Std.TransCmp cmp]

theorem get_eq (h : Sound cmp d) : d.get cmp key = SortedList.find cmp key d.entries := by
  cases d with
  | tree self => exact getFrom_eq h.1
  | array self =>
      rw [get, FArraySortedDictionary.get, entries]
      rcases self.findKey_cases key with ⟨hfind, hnone⟩ | ⟨before, old, after, hsplit, heq, hfind⟩
      · rw [hfind, hnone]
      · have hpivot := @SortedList.find_pivot _ _ _ key _ _ _ _ (hsplit ▸ h.1)
        rw [hfind, hsplit, hpivot, heq]
        simp

theorem getPredecessorKey_eq (h : Sound cmp d) :
    (d.getPredecessorKey cmp key).toOption =
      (SortedList.find cmp key d.entries).map fun _ =>
        (SortedList.below cmp key d.entries).getLast?.map Prod.fst := by
  cases d with
  | tree self =>
      rw [getPredecessorKey, FTreeSortedDictionary.getPredecessorKey, predecessorFrom_eq none h.1]
      simp only [Option.or_none]
      rfl
  | array self =>
      rw [getPredecessorKey, FArraySortedDictionary.getPredecessorKey, entries]
      rcases self.findKey_cases key with ⟨hfind, hnone⟩ | ⟨before, old, after, hsplit, heq, hfind⟩
      · rw [hfind, hnone]
        rfl
      · have hpivot := @SortedList.find_pivot _ _ _ key _ _ _ _ (hsplit ▸ h.1)
        have hbelow := @SortedList.below_pivot _ _ _ key _ _ _ _ (hsplit ▸ h.1)
        rw [hfind, hsplit, hpivot, hbelow, heq]
        rcases List.eq_nil_or_concat before with rfl | ⟨init, last, rfl⟩
        · rfl
        · simp [Except.toOption]

/-- The tree over a dictionary with no key twice. -/
theorem tree_fromDictionary {dictionary entries : List (κ × ν)}
    (hperm : dictionary.Perm entries) (h : Ascending cmp entries) :
    ∃ self, FTreeSortedDictionary.fromDictionary cmp dictionary = .ok self ∧
      self.root.entries = entries ∧ Sound cmp (.tree self) := by
  obtain ⟨root, hroot, hbalanced, hentries⟩ := FTreeSortedDictionary.fromEntries_spec entries
  refine ⟨FTreeSortedDictionary.mk root, ?_, hentries, hentries.symm ▸ h, hbalanced⟩
  rw [FTreeSortedDictionary.fromDictionary, sortedEntries_eq hperm h]
  simp only [bind, Except.bind, hroot]

theorem fromDictionary_eq {dictionary entries : List (κ × ν)}
    (hperm : dictionary.Perm entries) (h : Ascending cmp entries) :
    ∃ d, fromDictionary cmp dictionary = .ok d ∧ d.entries = entries ∧ Sound cmp d := by
  rw [fromDictionary]
  split
  · next hlength =>
    refine ⟨.array ⟨entries⟩, ?_, rfl, h, hperm.length_eq ▸ hlength⟩
    rw [FArraySortedDictionary.fromDictionary, sortedEntries_eq hperm h]
    rfl
  · obtain ⟨self, hself, hentries, hsound⟩ := tree_fromDictionary hperm h
    exact ⟨.tree self, by rw [hself]; rfl, hentries, hsound⟩

theorem insertKey_eq (h : Sound cmp d) (aKey : κ) (aValue : ν) :
    ∃ d' pick, d.insertKey cmp aKey aValue = .ok d' ∧ SortedList.Picks cmp pick ∧
      d'.entries = SortedList.insert cmp pick aKey aValue d.entries ∧ Sound cmp d' := by
  cases d with
  | tree self =>
      have hentries : (self.root.insertKey cmp aKey aValue).entries =
          SortedList.insert cmp (fun old _ => old) aKey aValue self.root.entries :=
        FLLRBNode.entries_insertKey h.1
      refine ⟨_, _, rfl, SortedList.picks_old, ?_, ?_, ?_⟩
      · exact (FLLRBNode.entries_withColor _ _).trans hentries
      · change Ascending cmp (FLLRBNode.withColor _ _).entries
        rw [FLLRBNode.entries_withColor, hentries]
        exact h.1.insert SortedList.picks_old
      · obtain ⟨height, hbalanced⟩ := h.2
        obtain ⟨c, hinserted⟩ := hbalanced.insertKey.resolve_right (by simp)
        exact hinserted.blackened
  | array self =>
      have hasc : Ascending cmp
          (SortedList.insert cmp (fun _ key => key) aKey aValue self.entries) :=
        h.1.insert SortedList.picks_new
      rw [insertKey]
      rcases self.findKey_cases aKey with ⟨hfind, hnone⟩ | ⟨before, old, after, hsplit, heq, hfind⟩
      · rw [hfind]
        dsimp only
        split
        · have hperm : (self.entries ++ [(aKey, aValue)]).Perm
              (SortedList.insert cmp (fun _ key => key) aKey aValue self.entries) :=
            List.perm_append_comm.trans (SortedList.perm_insert hnone).symm
          obtain ⟨tree, htree, hentries, hsound⟩ := tree_fromDictionary hperm hasc
          exact ⟨.tree tree, _, by rw [htree]; rfl, SortedList.picks_new, hentries, hsound⟩
        · next hlength =>
          have hnew := @insertIdx_eq _ _ _ _ aValue _ _ hnone fun _ key => key
          refine ⟨_, _, rfl, SortedList.picks_new, hnew, ?_⟩
          rw [Sound, FArraySortedDictionary.findInsertPositionForKey, hnew]
          refine ⟨hasc, ?_⟩
          rw [(SortedList.perm_insert hnone).length_eq, List.length_cons]
          omega
      · have hset : self.entries.set before.length (aKey, aValue) =
            SortedList.insert cmp (fun _ key => key) aKey aValue self.entries := by
          rw [hsplit, SortedList.insert_pivot (hsplit ▸ h.1), heq]
          simp
        rw [hfind]
        refine ⟨_, _, rfl, SortedList.picks_new, hset, ?_⟩
        rw [Sound, List.length_set, hset]
        exact ⟨hasc, h.2⟩

theorem removeKey_eq (h : Sound cmp d) (aKey : κ) :
    (d.removeKey cmp aKey).entries = SortedList.erase cmp aKey d.entries ∧
      Sound cmp (d.removeKey cmp aKey) := by
  cases d with
  | tree self =>
      rw [removeKey, FTreeSortedDictionary.removeKey]
      split
      · next hmissing =>
        have hfind := @getFrom_eq _ _ _ aKey _ _ h.1
        have hnone : SortedList.find cmp aKey self.root.entries = none := by
          rw [← hfind]
          simpa [FTreeSortedDictionary.contains, FTreeSortedDictionary.get] using hmissing
        exact ⟨(SortedList.erase_eq_self hnone).symm, h⟩
      · obtain ⟨height, hbalanced⟩ := h.2
        obtain ⟨hremoved, hentries⟩ := @hbalanced.remove_root _ _ _ _ aKey _ _ h.1
        exact ⟨hentries, hentries ▸ h.1.erase, hremoved⟩
  | array self =>
      rw [removeKey, FArraySortedDictionary.removeKey]
      rcases self.findKey_cases aKey with ⟨hfind, hnone⟩ | ⟨before, old, after, hsplit, heq, hfind⟩
      · rw [hfind]
        exact ⟨(SortedList.erase_eq_self hnone).symm, h⟩
      · have herase : self.entries.eraseIdx before.length =
            SortedList.erase cmp aKey self.entries := by
          rw [hsplit, SortedList.erase_pivot (hsplit ▸ h.1), heq,
            List.eraseIdx_append_of_length_le le_rfl, Nat.sub_self]
          rfl
        rw [hfind]
        refine ⟨herase, ?_⟩
        change Ascending cmp (self.entries.eraseIdx before.length) ∧
          (self.entries.eraseIdx before.length).length ≤ arrayToTreeSizeThreshold
        rw [herase]
        exact ⟨h.1.erase, SortedList.erase_sublist.length_le.trans h.2⟩

end Step

section Runs

inductive Update (κ ν : Type*) where
  | insert (key : κ) (value : ν)
  | remove (key : κ)

variable (cmp) in
def Update.apply (d : FImmutableSortedDictionary κ ν) :
    Update κ ν → Except String (FImmutableSortedDictionary κ ν)
  | .insert key value => d.insertKey cmp key value
  | .remove key => .ok (d.removeKey cmp key)

variable (cmp) in
/-- What is under a key after an update, if `found` was before. -/
def Update.leaves (key : κ) (found : Option ν) : Update κ ν → Option ν
  | .insert key' value => if cmp key key' = .eq then some value else found
  | .remove key' => if cmp key key' = .eq then none else found

variable (cmp) in
def run (updates : List (Update κ ν)) (d : FImmutableSortedDictionary κ ν) :
    Except String (FImmutableSortedDictionary κ ν) :=
  updates.foldlM (Update.apply cmp) d

variable (cmp) in
/-- What an array of keys and values has under a key. -/
def valueIn (key : κ) (dictionary : List (κ × ν)) : Option ν :=
  (dictionary.find? fun entry => cmp key entry.1 = .eq).map Prod.snd

variable {dictionary : List (κ × ν)} {updates : List (Update κ ν)}

variable [Std.TransCmp cmp]

/-- The dictionary is made unless two keys compare equal, and whatever the order
it is made in. -/
theorem fromDictionary_eq_ok (h : fromDictionary cmp dictionary = .ok d) :
    dictionary.Perm d.entries ∧ Sound cmp d := by
  have hsorted : ∃ entries, sortedEntries cmp dictionary = .ok entries := by
    cases hsorted : sortedEntries cmp dictionary with
    | ok entries => exact ⟨entries, rfl⟩
    | error reason =>
        rw [fromDictionary, FArraySortedDictionary.fromDictionary,
          FTreeSortedDictionary.fromDictionary, hsorted] at h
        split at h <;> cases h
  obtain ⟨entries, hentries⟩ := hsorted
  obtain ⟨hperm, hasc⟩ := sortedEntries_eq_ok_iff.mp hentries
  obtain ⟨d', hd', rfl, hsound⟩ := fromDictionary_eq hperm hasc
  obtain rfl := Except.ok.inj (h.symm.trans hd')
  exact ⟨hperm, hsound⟩

theorem valueIn_eq {entries : List (κ × ν)} (hperm : dictionary.Perm entries)
    (h : Ascending cmp entries) (key : κ) :
    valueIn cmp key dictionary = SortedList.find cmp key entries := by
  rw [valueIn]
  cases hfind : dictionary.find? fun entry => cmp key entry.1 = .eq with
  | some entry =>
      have heq : cmp key entry.1 = .eq := by simpa using List.find?_some hfind
      exact ((SortedList.find_eq_some_iff h).mpr
        ⟨entry, hperm.subset (List.mem_of_find?_eq_some hfind), heq, rfl⟩).symm
  | none =>
      cases hvalue : SortedList.find cmp key entries with
      | none => rfl
      | some value =>
          obtain ⟨entry, hmem, heq, _⟩ := SortedList.exists_mem_of_find hvalue
          have hnot := List.find?_eq_none.mp hfind entry (hperm.symm.subset hmem)
          simp [heq] at hnot

/-- One update. -/
theorem apply_eq (h : Sound cmp d) (update : Update κ ν) :
    ∃ d', update.apply cmp d = .ok d' ∧ Sound cmp d' ∧
      ∀ key, d'.get cmp key = update.leaves cmp key (d.get cmp key) := by
  cases update with
  | insert aKey aValue =>
      obtain ⟨d', pick, hinsert, hpick, hentries, hsound⟩ := insertKey_eq h aKey aValue
      refine ⟨d', hinsert, hsound, fun key => ?_⟩
      rw [get_eq hsound, hentries, SortedList.find_insert hpick h.ascending, get_eq h, Update.leaves]
  | remove aKey =>
      obtain ⟨hentries, hsound⟩ := removeKey_eq h aKey
      refine ⟨_, rfl, hsound, fun key => ?_⟩
      rw [get_eq hsound, hentries, SortedList.find_erase h.ascending, get_eq h, Update.leaves]

/-- No run throws, and what is under a key then is what its last update left. -/
theorem run_eq (h : Sound cmp d) (updates : List (Update κ ν)) :
    ∃ d', run cmp updates d = .ok d' ∧ Sound cmp d' ∧
      ∀ key, d'.get cmp key = updates.foldl (Update.leaves cmp key) (d.get cmp key) := by
  induction updates generalizing d with
  | nil => exact ⟨d, rfl, h, fun _ => rfl⟩
  | cons update updates ih =>
      obtain ⟨d', happly, hsound, hvalue⟩ := apply_eq h update
      obtain ⟨d'', hrun, hsound', hvalues⟩ := ih hsound
      refine ⟨d'', ?_, hsound', fun key => ?_⟩
      · rw [run, List.foldlM_cons, happly]
        exact hrun
      · rw [hvalues, hvalue, List.foldl_cons]

/-- From any dictionary that can be made, whatever is inserted and removed: it
never throws, it holds what the last update of a key left there, its entries
ascend, and every question is answered from them. -/
theorem run_refines (h : fromDictionary cmp dictionary = .ok d) (updates : List (Update κ ν)) :
    ∃ d', run cmp updates d = .ok d' ∧ Ascending cmp d'.entries ∧
      d'.count = d'.entries.length ∧ d'.minKey = d'.entries.head?.map Prod.fst ∧
      d'.maxKey = d'.entries.getLast?.map Prod.fst ∧
      ∀ key, d'.get cmp key = updates.foldl (Update.leaves cmp key) (valueIn cmp key dictionary) ∧
        d'.get cmp key = SortedList.find cmp key d'.entries ∧
        d'.contains cmp key = (d'.get cmp key).isSome ∧
        (d'.getPredecessorKey cmp key).toOption = (d'.get cmp key).map fun _ =>
          (SortedList.below cmp key d'.entries).getLast?.map Prod.fst := by
  obtain ⟨hperm, hsound⟩ := fromDictionary_eq_ok h
  obtain ⟨d', hrun, hsound', hvalues⟩ := run_eq hsound updates
  refine ⟨d', hrun, hsound'.ascending, count_eq, minKey_eq, maxKey_eq, fun key => ?_⟩
  refine ⟨?_, get_eq hsound', contains_eq, ?_⟩
  · rw [hvalues, get_eq hsound, valueIn_eq hperm hsound.ascending]
  · rw [getPredecessorKey_eq hsound', get_eq hsound']

theorem run_refines_of_two :
    ∃ d' : FImmutableSortedDictionary Nat String,
      run compare [.insert 2 "b", .remove 3, .insert 1 "a"]
        (.array { entries := [(2, "z"), (3, "c")] }) = .ok d' ∧ Ascending compare d'.entries ∧
      d'.count = d'.entries.length ∧ d'.minKey = d'.entries.head?.map Prod.fst ∧
      d'.maxKey = d'.entries.getLast?.map Prod.fst ∧
      ∀ key, d'.get compare key =
          ([.insert 2 "b", .remove 3, .insert 1 "a"] : List (Update Nat String)).foldl
            (Update.leaves compare key) (valueIn compare key [(3, "c"), (2, "z")]) ∧
        d'.get compare key = SortedList.find compare key d'.entries ∧
        d'.contains compare key = (d'.get compare key).isSome ∧
        (d'.getPredecessorKey compare key).toOption = (d'.get compare key).map fun _ =>
          (SortedList.below compare key d'.entries).getLast?.map Prod.fst := by
  have hsorted : sortedEntries compare [(3, "c"), (2, "z")] = .ok [(2, "z"), (3, "c")] :=
    sortedEntries_eq (by decide) (by unfold Ascending; decide)
  refine @run_refines Nat String compare _ [(3, "c"), (2, "z")] _ ?_ _
  rw [fromDictionary, FArraySortedDictionary.fromDictionary, hsorted]
  rfl

section Cost

open FLLRBNode

variable {t : FLLRBNode κ ν} {color : FLLRBColor} {height : Nat}

variable (cmp) in
/-- The nodes that `get` looks at. -/
def visited (key : κ) : FLLRBNode κ ν → Nat
  | .empty => 0
  | .node _ left key' _ right =>
      match cmp key key' with
      | .eq => 1
      | .lt => visited key left + 1
      | .gt => visited key right + 1

omit [Std.TransCmp cmp] in
theorem visited_le (h : Balanced t color height) (key : κ) :
    visited cmp key t + color.weight ≤ 2 * height + 1 := by
  induction h with
  | empty => simp [visited]
  | red _ _ ihleft ihright =>
      simp only [visited, FLLRBColor.weight] at ihleft ihright ⊢
      split <;> omega
  | black _ _ ihleft ihright =>
      simp only [visited, FLLRBColor.weight] at ihleft ihright ⊢
      split <;> omega

/-- An array has at most as many entries as the threshold. A tree has a black
root, `check` passes and `checkMaxDepth` holds, and no key takes more than twice
the logarithm of its size to find. -/
theorem run_balanced (h : fromDictionary cmp dictionary = .ok d)
    (hrun : run cmp updates d = .ok d') :
    match d' with
    | .array self => self.entries.length ≤ arrayToTreeSizeThreshold
    | .tree self =>
        self.root.isRed = false ∧ self.root.checkMaxDepth = some true ∧
        ∀ key, visited cmp key self.root ≤ 2 * (self.root.count + 1).log2 := by
  obtain ⟨hperm, hsound⟩ := fromDictionary_eq_ok h
  obtain ⟨found, hfound, hsound', _⟩ := run_eq hsound updates
  obtain rfl := Except.ok.inj (hrun.symm.trans hfound)
  cases d' with
  | array self => exact hsound'.2
  | tree self =>
      obtain ⟨height, hbalanced⟩ := hsound'.2
      refine ⟨hbalanced.not_isRed, ?_, fun key => ?_⟩
      · rw [checkMaxDepth, hbalanced.check]
        simp [hbalanced.two_pow_le]
      · have hvisited := @visited_le _ _ cmp _ _ _ hbalanced key
        have hheight : height ≤ (self.root.count + 1).log2 :=
          (Nat.le_log2 (Nat.succ_ne_zero _)).mpr hbalanced.two_pow_le
        simp only [FLLRBColor.weight] at hvisited
        omega

/-- One key more than the threshold makes a tree. -/
theorem fromDictionary_range :
    ∃ root, fromDictionary compare ((List.range 26).map fun k => (k, k)) =
      .ok (.tree { root }) := by
  have hsorted : sortedEntries compare ((List.range 26).map fun k => (k, k)) =
      .ok ((List.range 26).map fun k => (k, k)) :=
    sortedEntries_eq (.refl _) (by unfold Ascending; decide +kernel)
  obtain ⟨root, hroot, _⟩ :=
    FTreeSortedDictionary.fromEntries_spec ((List.range 26).map fun k => (k, k))
  refine ⟨root, ?_⟩
  rw [fromDictionary, if_neg (by decide), FTreeSortedDictionary.fromDictionary, hsorted]
  simp only [bind, Except.bind, hroot]
  rfl

theorem run_balanced_of_range :
    ∃ root : FLLRBNode Nat Nat,
      fromDictionary compare ((List.range 26).map fun k => (k, k)) = .ok (.tree { root }) ∧
      root.isRed = false ∧ root.checkMaxDepth = some true ∧
      ∀ key, visited compare key root ≤ 2 * (root.count + 1).log2 := by
  obtain ⟨root, hroot⟩ := fromDictionary_range
  exact ⟨root, hroot, @run_balanced Nat Nat compare (.tree { root }) (.tree { root }) _ [] _
    hroot rfl⟩

end Cost

end Runs

end FImmutableSortedDictionary

end FirebaseDatabase
