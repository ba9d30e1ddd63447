import Auctioneer.FirebaseDatabase.DictionaryRuns
import Mathlib.Data.List.Chain

/-!
A dictionary uses its comparator on its keys and on the one it is asked for: two
comparators that agree on these do the same.
-/

namespace FirebaseDatabase

variable {κ ν : Type*} {cmp cmp' : κ → κ → Ordering} {K : Set κ} {key aKey : κ} {value aValue : ν}

/-- The two comparators agree on the keys of a set. -/
def AgreeOn (K : Set κ) (cmp cmp' : κ → κ → Ordering) : Prop :=
  ∀ a ∈ K, ∀ b ∈ K, cmp a b = cmp' a b

/-- The keys of the entries are in a set. -/
def KeysIn (K : Set κ) (entries : List (κ × ν)) : Prop := ∀ entry ∈ entries, entry.1 ∈ K

theorem KeysIn.subset {entries entries' : List (κ × ν)} (h : KeysIn K entries)
    (hsubset : entries' ⊆ entries) : KeysIn K entries' :=
  fun entry hentry => h entry (hsubset hentry)

section Tree

open FLLRBNode

variable {t : FLLRBNode κ ν}

theorem keysIn_node {color : FLLRBColor} {left right : FLLRBNode κ ν} :
    KeysIn K (node color left key value right).entries ↔
      KeysIn K left.entries ∧ key ∈ K ∧ KeysIn K right.entries := by
  simp only [KeysIn, entries, List.mem_append, List.mem_cons, or_imp, forall_and, forall_eq]

theorem getFrom_congr (h : AgreeOn K cmp cmp') (hkey : aKey ∈ K) (hkeys : KeysIn K t.entries) :
    FTreeSortedDictionary.getFrom cmp aKey t = FTreeSortedDictionary.getFrom cmp' aKey t := by
  induction t with
  | empty => rfl
  | node color left key value right ihleft ihright =>
      obtain ⟨hleft, hroot, hright⟩ := keysIn_node.mp hkeys
      rw [FTreeSortedDictionary.getFrom, FTreeSortedDictionary.getFrom, h aKey hkey key hroot,
        ihleft hleft, ihright hright]

theorem FLLRBNode.insertKey_congr (h : AgreeOn K cmp cmp') (hkey : aKey ∈ K)
    (hkeys : KeysIn K t.entries) :
    insertKey cmp aKey aValue t = insertKey cmp' aKey aValue t := by
  induction t with
  | empty => rfl
  | node color left key value right ihleft ihright =>
      obtain ⟨hleft, hroot, hright⟩ := keysIn_node.mp hkeys
      rw [insertKey, insertKey, h aKey hkey key hroot, ihleft hleft, ihright hright]

theorem entries_left_subset (t : FLLRBNode κ ν) : t.left.entries ⊆ t.entries := by
  cases t with
  | empty => exact List.Subset.refl _
  | node => exact List.subset_append_left _ _

theorem entries_withLeft_subset {t left : FLLRBNode κ ν} {entries : List (κ × ν)}
    (ht : t.entries ⊆ entries) (hleft : left.entries ⊆ entries) :
    (t.withLeft left).entries ⊆ entries := by
  cases t with
  | empty => exact ht
  | node =>
      exact List.append_subset.mpr ⟨hleft, (List.append_subset.mp ht).2⟩

theorem entries_removeMin_subset (t : FLLRBNode κ ν) : t.removeMin.entries ⊆ t.entries := by
  induction t using (measure FLLRBNode.count).wf.induction with
  | _ t ih =>
  cases t with
  | empty =>
      rw [removeMin]
      exact List.Subset.refl _
  | node color left key value right =>
      have hsmaller := ih _ (count_prepareLeft color left key value right)
      rw [removeMin]
      split
      · exact List.nil_subset _
      · rw [entries_fixUp, ← entries_prepareLeft (node color left key value right)]
        exact entries_withLeft_subset (List.Subset.refl _)
          (List.Subset.trans hsmaller (entries_left_subset _))

/-- The step at an entry that has nothing to the right. -/
theorem remove_none {color c : FLLRBColor} {left right l r : FLLRBNode κ ν} {k : κ} {v : ν}
    (hcmp : cmp aKey key ≠ .lt)
    (hprepared : prepareRight (.node color left key value right) = .node c l k v r)
    (hkey : cmp aKey k = .eq) (hmin : r.min = .empty) :
    remove cmp aKey (.node color left key value right) = .empty := by
  rw [remove, if_neg hcmp]
  split
  · rfl
  · next heq =>
    rw [hprepared] at heq
    cases heq
    rw [if_pos hkey, hmin]

/-- The way down and what is done on it are decided by comparisons with keys of
the tree alone. -/
theorem FLLRBNode.remove_congr (h : AgreeOn K cmp cmp') (hkey : aKey ∈ K)
    (hkeys : KeysIn K t.entries) : remove cmp aKey t = remove cmp' aKey t := by
  induction t using (measure FLLRBNode.count).wf.induction with
  | _ t ih =>
  cases t with
  | empty => rw [remove, remove]
  | node color left key value right =>
      have hroot := h aKey hkey key (keysIn_node.mp hkeys).2.1
      by_cases hcmp : cmp aKey key = .lt
      · have hsame := entries_prepareLeft (node color left key value right)
        have hsmaller := ih _ (count_prepareLeft color left key value right)
          (hkeys.subset (hsame ▸ entries_left_subset _))
        rw [remove_left hcmp rfl, remove_left (hroot ▸ hcmp) rfl, hsmaller]
      · have hcmp' : cmp' aKey key ≠ .lt := hroot ▸ hcmp
        have hsame := entries_prepareRight (node color left key value right)
        have hcount := count_prepareRight_le (node color left key value right)
        cases hprepared : prepareRight (node color left key value right) with
        | empty =>
            rw [hprepared] at hsame
            simp [entries] at hsame
        | node c l k v r =>
            rw [hprepared] at hsame hcount
            obtain ⟨_, hk, hr⟩ := keysIn_node.mp (hsame.symm ▸ hkeys)
            have hhere := h aKey hkey k hk
            simp only [count] at hcount
            by_cases heq : cmp aKey k = .eq
            · cases hmin : r.min with
              | empty => rw [remove_none hcmp hprepared heq hmin,
                  remove_none hcmp' hprepared (hhere ▸ heq) hmin]
              | node c' l' k' v' r' =>
                  have hle := count_removeMin_le r
                  have hsmaller := ih r.removeMin (by simp only [WellFoundedRelation.rel, InvImage, count]; omega)
                    (hr.subset (entries_removeMin_subset r))
                  rw [remove_here hcmp hprepared heq hmin,
                    remove_here hcmp' hprepared (hhere ▸ heq) hmin, hsmaller]
            · have hsmaller := ih r (by simp only [WellFoundedRelation.rel, InvImage, count]; omega) hr
              rw [remove_right hcmp hprepared heq, remove_right hcmp' hprepared (hhere ▸ heq), hsmaller]

end Tree

section Array

open FArraySortedDictionary

variable {self : FArraySortedDictionary κ ν} {entries : List (κ × ν)}

theorem findKeyFrom_congr (h : AgreeOn K cmp cmp') (hkey : aKey ∈ K) (hkeys : KeysIn K entries)
    (pos : ℕ) : findKeyFrom cmp aKey pos entries = findKeyFrom cmp' aKey pos entries := by
  induction entries generalizing pos with
  | nil => rfl
  | cons entry rest ih =>
      obtain ⟨hentry, hrest⟩ := List.forall_mem_cons.mp hkeys
      rw [findKeyFrom, findKeyFrom, h aKey hkey entry.1 hentry, ih hrest]

theorem takeWhile_congr (h : AgreeOn K cmp cmp') (hkey : aKey ∈ K) (hkeys : KeysIn K entries) :
    (entries.takeWhile fun entry => cmp entry.1 aKey = .lt) =
      entries.takeWhile fun entry => cmp' entry.1 aKey = .lt := by
  induction entries with
  | nil => rfl
  | cons entry rest ih =>
      obtain ⟨hentry, hrest⟩ := List.forall_mem_cons.mp hkeys
      rw [List.takeWhile_cons, List.takeWhile_cons, h entry.1 hentry aKey hkey, ih hrest]

theorem sortedEntries_congr (h : AgreeOn K cmp cmp') (hkeys : KeysIn K entries) :
    sortedEntries cmp entries = sortedEntries cmp' entries := by
  have hsort := List.map_mergeSort
    (r := fun entry later => (cmp entry.1 later.1).isLE)
    (s := fun entry later => (cmp' entry.1 later.1).isLE) (f := id) (l := entries)
    fun entry hentry later hlater =>
      congrArg Ordering.isLE (h entry.1 (hkeys entry hentry) later.1 (hkeys later hlater))
  rw [List.map_id, List.map_id] at hsort
  rw [sortedEntries, sortedEntries, hsort]
  have hsorted : KeysIn K (entries.mergeSort fun entry later => (cmp' entry.1 later.1).isLE) :=
    hkeys.subset (List.mergeSort_perm _ _).subset
  exact if_congr (List.IsChain.iff_of_mem_imp fun entry later hentry hlater => by
    rw [h entry.1 (hsorted entry hentry) later.1 (hsorted later hlater)]) rfl rfl

end Array

namespace FImmutableSortedDictionary

variable {d : FImmutableSortedDictionary κ ν}

theorem get_congr (h : AgreeOn K cmp cmp') (hkey : aKey ∈ K) (hkeys : KeysIn K d.entries) :
    d.get cmp aKey = d.get cmp' aKey := by
  cases d with
  | tree self => exact getFrom_congr h hkey hkeys
  | array self =>
      change KeysIn K self.entries at hkeys
      rw [get, get, FArraySortedDictionary.get, FArraySortedDictionary.get,
        FArraySortedDictionary.findKey, FArraySortedDictionary.findKey,
        findKeyFrom_congr h hkey hkeys]

theorem removeKey_congr (h : AgreeOn K cmp cmp') (hkey : aKey ∈ K) (hkeys : KeysIn K d.entries) :
    d.removeKey cmp aKey = d.removeKey cmp' aKey := by
  cases d with
  | tree self =>
      rw [removeKey, removeKey, FTreeSortedDictionary.removeKey, FTreeSortedDictionary.removeKey,
        FTreeSortedDictionary.contains, FTreeSortedDictionary.contains, FTreeSortedDictionary.get,
        FTreeSortedDictionary.get, getFrom_congr h hkey hkeys, FLLRBNode.remove_congr h hkey hkeys]
  | array self =>
      change KeysIn K self.entries at hkeys
      rw [removeKey, removeKey, FArraySortedDictionary.removeKey, FArraySortedDictionary.removeKey,
        FArraySortedDictionary.findKey, FArraySortedDictionary.findKey,
        findKeyFrom_congr h hkey hkeys]

theorem insertKey_congr (h : AgreeOn K cmp cmp') (hkey : aKey ∈ K) (hkeys : KeysIn K d.entries) :
    d.insertKey cmp aKey aValue = d.insertKey cmp' aKey aValue := by
  cases d with
  | tree self =>
      rw [insertKey, insertKey, FTreeSortedDictionary.insertKey, FTreeSortedDictionary.insertKey,
        FLLRBNode.insertKey_congr h hkey hkeys]
  | array self =>
      change KeysIn K self.entries at hkeys
      have hkeys' : KeysIn K (self.entries ++ [(aKey, aValue)]) :=
        List.forall_mem_append.mpr ⟨hkeys, List.forall_mem_singleton.mpr hkey⟩
      rw [insertKey, insertKey, FArraySortedDictionary.findKey, FArraySortedDictionary.findKey,
        FArraySortedDictionary.findInsertPositionForKey,
        FArraySortedDictionary.findInsertPositionForKey, FTreeSortedDictionary.fromDictionary,
        FTreeSortedDictionary.fromDictionary, findKeyFrom_congr h hkey hkeys,
        takeWhile_congr h hkey hkeys, sortedEntries_congr h hkeys']

end FImmutableSortedDictionary

end FirebaseDatabase
