import Auctioneer.FirebaseDatabase.Builder
import Auctioneer.FirebaseDatabase.Removing

/-!
The sorted dictionary is the sorted list of its entries, whichever of the two
forms it has, and a tree that it turned into stays balanced.
-/

namespace FirebaseDatabase

open SortedList (Ascending)

variable {κ ν : Type*} {cmp : κ → κ → Ordering} {key : κ} {value : ν}
  {dictionary entries : List (κ × ν)}

section Sorted

variable [Std.TransCmp cmp]

theorem sortedEntries_eq (hperm : dictionary.Perm entries) (h : Ascending cmp entries) :
    sortedEntries cmp dictionary = .ok entries := by
  have hle : ∀ {a b : κ}, (cmp a b).isLE = true → (cmp b a).isLE = true → cmp a b = .eq :=
    fun hab hba => Std.OrientedCmp.isLE_antisymm hab hba
  have hsorted : (dictionary.mergeSort fun entry later => (cmp entry.1 later.1).isLE) = entries := by
    have hsame := (List.mergeSort_perm dictionary
      fun entry later => (cmp entry.1 later.1).isLE).trans hperm
    refine hsame.eq_of_pairwise ?_ (List.pairwise_mergeSort ?_ ?_ dictionary)
      (h.imp fun hlt => by simp [hlt])
    · intro a b ha hb hab hba
      exact h.eq_of_eq (hsame.mem_iff.mp ha) hb (hle hab hba)
    · intro a b c hab hbc
      exact Std.TransCmp.isLE_trans hab hbc
    · intro a b
      rw [@Std.OrientedCmp.eq_swap κ cmp _ b.1 a.1]
      cases cmp a.1 b.1 <;> rfl
  rw [sortedEntries, hsorted]
  exact if_pos (List.Pairwise.isChain h)

theorem sortedEntries_eq_ok_iff :
    sortedEntries cmp dictionary = .ok entries ↔
      dictionary.Perm entries ∧ Ascending cmp entries := by
  refine ⟨?_, fun ⟨hperm, h⟩ => sortedEntries_eq hperm h⟩
  intro h
  rw [sortedEntries] at h
  split at h
  · next hchain =>
    obtain rfl := Except.ok.inj h
    refine ⟨(List.mergeSort_perm _ _).symm, ?_⟩
    let ordered (entry later : κ × ν) : Prop := cmp entry.1 later.1 = .lt
    have : Trans ordered ordered ordered := ⟨Std.TransCmp.lt_trans⟩
    exact List.isChain_iff_pairwise.mp hchain
  · cases h

end Sorted

section Tree

open FLLRBNode FTreeSortedDictionary

variable {t : FLLRBNode κ ν}

theorem minKey_eq : t.minKey = t.entries.head?.map Prod.fst := by
  induction t with
  | empty => rfl
  | node color left key value right ihleft _ =>
      cases left with
      | empty => rfl
      | node c ll k v lr =>
          rw [minKey, if_neg (by simp [isEmpty]), ihleft, entries.eq_2 color]
          cases hentries : entries (.node c ll k v lr) with
          | nil => simp [FLLRBNode.entries] at hentries
          | cons first rest => rfl

theorem maxKey_eq : t.maxKey = t.entries.getLast?.map Prod.fst := by
  induction t with
  | empty => rfl
  | node color left key value right _ ihright =>
      cases right with
      | empty => simp [maxKey, isEmpty, entries]
      | node c rl k v rr =>
          rw [maxKey, if_neg (by simp [isEmpty]), ihright, entries.eq_2 color]
          simp [entries, List.getLast?_cons]

variable [Std.TransCmp cmp]

theorem getFrom_eq (h : Ascending cmp t.entries) :
    getFrom cmp key t = SortedList.find cmp key t.entries := by
  induction t with
  | empty => rfl
  | node color left key' value' right ihleft ihright =>
      obtain ⟨hleft, hright, _⟩ := ascending_node.mp h
      rw [getFrom, entries, SortedList.find_pivot h]
      cases cmp key key' with
      | lt => exact ihleft hleft
      | eq => rfl
      | gt => exact ihright hright

/-- Where the key is, the key before it: the last one on the way down that is
below, unless there are some to the left. -/
theorem predecessorFrom_eq (rightParent : Option κ) (h : Ascending cmp t.entries) :
    (predecessorFrom cmp key rightParent t).toOption =
      (SortedList.find cmp key t.entries).map fun _ =>
        ((SortedList.below cmp key t.entries).getLast?.map Prod.fst).or rightParent := by
  induction t generalizing rightParent with
  | empty => rfl
  | node color left key' value' right ihleft ihright =>
      obtain ⟨hleft, hright, _⟩ := ascending_node.mp h
      rw [predecessorFrom, entries, SortedList.find_pivot h, SortedList.below_pivot h]
      cases hcmp : cmp key key' with
      | lt => exact ihleft rightParent hleft
      | eq =>
          cases left with
          | empty => simp [isEmpty, entries, Except.toOption]
          | node => simp [isEmpty, maxKey_eq, entries, Except.toOption, List.getLast?_cons]
      | gt =>
          rw [ihright (some key') hright]
          congr 1
          funext _
          cases hlast : SortedList.below cmp key right.entries with
          | nil => simp
          | cons first rest => simp [List.getLast?_cons]

end Tree

section Array

open FArraySortedDictionary

/-- Either the key is not there, or the entries are split at it. -/
theorem findKeyFrom_cases (key : κ) (pos : Nat) (entries : List (κ × ν)) :
    findKeyFrom cmp key pos entries = none ∧ SortedList.find cmp key entries = none ∨
      ∃ before old after, entries = before ++ old :: after ∧ cmp key old.1 = .eq ∧
        findKeyFrom cmp key pos entries = some (pos + before.length) := by
  induction entries generalizing pos with
  | nil => exact .inl ⟨rfl, rfl⟩
  | cons entry rest ih =>
      rw [findKeyFrom, SortedList.find]
      cases hcmp : cmp key entry.1 with
      | lt => exact .inl ⟨rfl, rfl⟩
      | eq => exact .inr ⟨[], entry, rest, rfl, hcmp, rfl⟩
      | gt =>
          rcases ih (pos + 1) with hnone | ⟨before, old, after, rfl, heq, hfind⟩
          · exact .inl hnone
          · refine .inr ⟨entry :: before, old, after, rfl, heq, ?_⟩
            rw [hfind, List.length_cons, Nat.add_right_comm, Nat.add_assoc]

theorem FArraySortedDictionary.findKey_cases (self : FArraySortedDictionary κ ν) (key : κ) :
    self.findKey cmp key = none ∧ SortedList.find cmp key self.entries = none ∨
      ∃ before old after, self.entries = before ++ old :: after ∧ cmp key old.1 = .eq ∧
        self.findKey cmp key = some before.length := by
  have hcases := @findKeyFrom_cases κ ν cmp key 0 self.entries
  simp only [Nat.zero_add] at hcases
  exact hcases

/-- A new key goes where the sorted list puts it. -/
theorem insertIdx_eq [Std.TransCmp cmp] (h : SortedList.find cmp key entries = none) (pick : κ → κ → κ) :
    entries.insertIdx (entries.takeWhile fun entry => cmp entry.1 key = .lt).length (key, value) =
      SortedList.insert cmp pick key value entries := by
  induction entries with
  | nil => rfl
  | cons entry rest ih =>
      rw [SortedList.find] at h
      rw [SortedList.insert]
      cases hcmp : cmp key entry.1 with
      | lt => simp [Std.OrientedCmp.gt_iff_lt.mpr hcmp]
      | eq => simp [hcmp] at h
      | gt =>
          rw [hcmp] at h
          simp [Std.OrientedCmp.gt_iff_lt.mp hcmp, ih h]

end Array

end FirebaseDatabase
