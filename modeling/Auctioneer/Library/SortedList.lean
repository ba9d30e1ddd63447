import Mathlib.Data.List.Basic
import Mathlib.Order.Basic

/-!
A dictionary as the list of its entries, ascending in a comparator: what any
sorted dictionary stands for. The pivot lemmas say how an operation on a list
that is split at an entry goes on in one of its parts.
-/

namespace SortedList

variable {κ ν : Type*} (cmp : κ → κ → Ordering)

def find (key : κ) : List (κ × ν) → Option ν
  | [] => none
  | entry :: rest =>
      match cmp key entry.1 with
      | .lt => none
      | .eq => some entry.2
      | .gt => find key rest

/-- Of two keys that compare equal, `pick` says which one stays. -/
def insert (pick : κ → κ → κ) (key : κ) (value : ν) : List (κ × ν) → List (κ × ν)
  | [] => [(key, value)]
  | entry :: rest =>
      match cmp key entry.1 with
      | .lt => (key, value) :: entry :: rest
      | .eq => (pick entry.1 key, value) :: rest
      | .gt => entry :: insert pick key value rest

/-- The entries before the place of a key. -/
def below (key : κ) (entries : List (κ × ν)) : List (κ × ν) :=
  entries.takeWhile fun entry => cmp key entry.1 = .gt

def Picks (pick : κ → κ → κ) : Prop :=
  ∀ old key, cmp key old = .eq → cmp (pick old key) key = .eq

def erase (key : κ) : List (κ × ν) → List (κ × ν)
  | [] => []
  | entry :: rest =>
      match cmp key entry.1 with
      | .lt => entry :: rest
      | .eq => rest
      | .gt => entry :: erase key rest

/-- The keys ascend, and so are distinct. -/
def Ascending (entries : List (κ × ν)) : Prop :=
  entries.Pairwise fun entry later => cmp entry.1 later.1 = .lt

variable {cmp} {pick : κ → κ → κ} {key other : κ} {value : ν} {entry : κ × ν}
  {entries left right : List (κ × ν)}

@[simp] theorem find_nil : find cmp key ([] : List (κ × ν)) = none := rfl

@[simp] theorem ascending_nil : Ascending cmp ([] : List (κ × ν)) := List.Pairwise.nil

@[simp] theorem ascending_singleton : Ascending cmp [entry] := List.pairwise_singleton _ _

theorem ascending_cons :
    Ascending cmp (entry :: entries) ↔
      (∀ later ∈ entries, cmp entry.1 later.1 = .lt) ∧ Ascending cmp entries :=
  List.pairwise_cons

/-- A list split at an entry: the keys of either part are on its side. -/
theorem ascending_append :
    Ascending cmp (left ++ entry :: right) ↔
      Ascending cmp left ∧ Ascending cmp right ∧
      (∀ earlier ∈ left, cmp earlier.1 entry.1 = .lt) ∧
      (∀ later ∈ right, cmp entry.1 later.1 = .lt) ∧
      ∀ earlier ∈ left, ∀ later ∈ right, cmp earlier.1 later.1 = .lt := by
  simp only [Ascending, List.pairwise_append, List.pairwise_cons, List.mem_cons, forall_eq_or_imp,
    forall_and]
  tauto

/-- A key that is below all is not there. -/
theorem find_eq_none_of_lt (h : ∀ entry ∈ entries, cmp key entry.1 = .lt) :
    find cmp key entries = none := by
  cases entries with
  | nil => rfl
  | cons entry rest => rw [find, h entry List.mem_cons_self]

theorem find_append_of_gt (h : ∀ entry ∈ left, cmp key entry.1 = .gt) :
    find cmp key (left ++ right) = find cmp key right := by
  induction left with
  | nil => rfl
  | cons entry rest ih =>
      rw [List.cons_append, find, h entry List.mem_cons_self]
      exact ih fun later hlater => h later (List.mem_cons_of_mem _ hlater)

section Pivot

variable [Std.TransCmp cmp]

theorem gt_of_lt_of_not_lt {low high : κ} (hlow : cmp low high = .lt)
    (hkey : cmp key high ≠ .lt) : cmp key low = .gt := by
  rw [Std.OrientedCmp.gt_iff_lt]
  cases hcmp : cmp key high with
  | lt => exact absurd hcmp hkey
  | eq => exact Std.TransCmp.lt_of_lt_of_eq hlow (Std.OrientedCmp.eq_symm hcmp)
  | gt => exact Std.TransCmp.lt_trans hlow (Std.OrientedCmp.gt_iff_lt.mp hcmp)

/-- The keys before the pivot are below a key that is not below the pivot. -/
theorem gt_of_left (h : Ascending cmp (left ++ entry :: right)) (hkey : cmp key entry.1 ≠ .lt) :
    ∀ earlier ∈ left, cmp key earlier.1 = .gt := by
  intro earlier hearlier
  exact gt_of_lt_of_not_lt ((ascending_append.mp h).2.2.1 earlier hearlier) hkey

theorem find_pivot (h : Ascending cmp (left ++ entry :: right)) :
    find cmp key (left ++ entry :: right) =
      match cmp key entry.1 with
      | .lt => find cmp key left
      | .eq => some entry.2
      | .gt => find cmp key right := by
  cases hcmp : cmp key entry.1 with
  | lt =>
      have hpart := (ascending_append.mp h).1
      clear h
      induction left with
      | nil => simp [find, hcmp]
      | cons first rest ih =>
          simp only [List.cons_append, find]
          rw [ih (ascending_cons.mp hpart).2]
  | eq =>
      rw [find_append_of_gt (gt_of_left h (by simp [hcmp])), find, hcmp]
  | gt =>
      rw [find_append_of_gt (gt_of_left h (by simp [hcmp])), find, hcmp]

theorem insert_pivot (h : Ascending cmp (left ++ entry :: right)) :
    insert cmp pick key value (left ++ entry :: right) =
      match cmp key entry.1 with
      | .lt => insert cmp pick key value left ++ entry :: right
      | .eq => left ++ (pick entry.1 key, value) :: right
      | .gt => left ++ entry :: insert cmp pick key value right := by
  induction left with
  | nil =>
      simp only [List.nil_append, insert]
      cases cmp key entry.1 <;> rfl
  | cons first rest ih =>
      have hrest : Ascending cmp (rest ++ entry :: right) := (ascending_cons.mp h).2
      simp only [List.cons_append, insert]
      cases hcmp : cmp key entry.1 with
      | lt => cases cmp key first.1 <;> simp [ih hrest, hcmp]
      | eq =>
          rw [gt_of_left h (by simp [hcmp]) first List.mem_cons_self]
          simp [ih hrest, hcmp]
      | gt =>
          rw [gt_of_left h (by simp [hcmp]) first List.mem_cons_self]
          simp [ih hrest, hcmp]

theorem erase_pivot (h : Ascending cmp (left ++ entry :: right)) :
    erase cmp key (left ++ entry :: right) =
      match cmp key entry.1 with
      | .lt => erase cmp key left ++ entry :: right
      | .eq => left ++ right
      | .gt => left ++ entry :: erase cmp key right := by
  induction left with
  | nil => rfl
  | cons first rest ih =>
      have hrest : Ascending cmp (rest ++ entry :: right) := (ascending_cons.mp h).2
      simp only [List.cons_append, erase]
      cases hcmp : cmp key entry.1 with
      | lt => cases cmp key first.1 <;> simp [ih hrest, hcmp]
      | eq =>
          rw [gt_of_left h (by simp [hcmp]) first List.mem_cons_self]
          simp [ih hrest, hcmp]
      | gt =>
          rw [gt_of_left h (by simp [hcmp]) first List.mem_cons_self]
          simp [ih hrest, hcmp]

theorem below_pivot (h : Ascending cmp (left ++ entry :: right)) :
    below cmp key (left ++ entry :: right) =
      match cmp key entry.1 with
      | .lt => below cmp key left
      | .eq => left
      | .gt => left ++ entry :: below cmp key right := by
  have hleft : cmp key entry.1 ≠ .lt →
      ∀ earlier ∈ left, decide (cmp key earlier.1 = .gt) = true := by
    intro hkey earlier hearlier
    exact decide_eq_true (gt_of_left h hkey earlier hearlier)
  cases hcmp : cmp key entry.1 with
  | lt =>
      have hpart := (ascending_append.mp h).1
      clear h hleft
      induction left with
      | nil => simp [below, hcmp]
      | cons first rest ih =>
          have hrest := ih (ascending_cons.mp hpart).2
          simp only [below, List.cons_append, List.takeWhile_cons] at hrest ⊢
          rw [hrest]
  | eq =>
      rw [below, List.takeWhile_append_of_pos (hleft (by simp [hcmp]))]
      simp [hcmp]
  | gt =>
      rw [below, List.takeWhile_append_of_pos (hleft (by simp [hcmp]))]
      simp [hcmp, below]

end Pivot

theorem erase_sublist : (erase cmp key entries).Sublist entries := by
  induction entries with
  | nil => exact .slnil
  | cons entry rest ih =>
      rw [erase]
      split
      · exact .refl _
      · exact List.sublist_cons_self _ _
      · exact ih.cons_cons _

theorem Ascending.erase (h : Ascending cmp entries) : Ascending cmp (erase cmp key entries) :=
  h.sublist erase_sublist

/-- The value of an insertion is the only one that it adds. -/
theorem value_of_mem_insert {new : κ × ν} (h : new ∈ insert cmp pick key value entries) :
    new.2 = value ∨ new ∈ entries := by
  induction entries with
  | nil =>
      obtain rfl := List.mem_singleton.mp h
      exact .inl rfl
  | cons entry rest ih =>
      rw [insert] at h
      split at h
      · exact (List.mem_cons.mp h).imp_left (congrArg Prod.snd)
      · exact (List.mem_cons.mp h).imp (congrArg Prod.snd) (List.mem_cons_of_mem _)
      · rcases List.mem_cons.mp h with rfl | hrest
        · exact .inr List.mem_cons_self
        · exact (ih hrest).imp_right (List.mem_cons_of_mem _)

theorem erase_eq_self (h : find cmp key entries = none) : erase cmp key entries = entries := by
  induction entries with
  | nil => rfl
  | cons entry rest ih =>
      rw [find] at h
      rw [erase]
      cases hcmp : cmp key entry.1 with
      | lt => rfl
      | eq => simp [hcmp] at h
      | gt =>
          rw [hcmp] at h
          exact congrArg (entry :: ·) (ih h)

/-- What has a new key is inserted into the list, wherever it goes. -/
theorem perm_insert (h : find cmp key entries = none) :
    (insert cmp pick key value entries).Perm ((key, value) :: entries) := by
  induction entries with
  | nil => exact .refl _
  | cons entry rest ih =>
      rw [find] at h
      rw [insert]
      cases hcmp : cmp key entry.1 with
      | lt => exact .refl _
      | eq => simp [hcmp] at h
      | gt =>
          rw [hcmp] at h
          exact ((ih h).cons entry).trans (.swap _ _ _)

section Total

variable [Std.TransCmp cmp]

theorem picks_old : Picks cmp fun old _ => old :=
  fun _ _ h => Std.OrientedCmp.eq_symm h

theorem picks_new : Picks cmp fun _ key => key :=
  fun _ _ _ => Std.ReflCmp.compare_self

theorem mem_of_mem_insert (hpick : Picks cmp pick) {new : κ × ν}
    (h : new ∈ insert cmp pick key value entries) : cmp new.1 key = .eq ∨ new ∈ entries := by
  induction entries with
  | nil =>
      obtain rfl := List.mem_singleton.mp h
      exact .inl Std.ReflCmp.compare_self
  | cons entry rest ih =>
      rw [insert] at h
      split at h
      · rcases List.mem_cons.mp h with rfl | hold
        · exact .inl Std.ReflCmp.compare_self
        · exact .inr hold
      · next heq =>
        rcases List.mem_cons.mp h with rfl | hrest
        · exact .inl (hpick _ _ heq)
        · exact .inr (List.mem_cons_of_mem _ hrest)
      · rcases List.mem_cons.mp h with rfl | hrest
        · exact .inr List.mem_cons_self
        · exact (ih hrest).imp_right (List.mem_cons_of_mem _)

theorem Ascending.insert (hpick : Picks cmp pick) (h : Ascending cmp entries) :
    Ascending cmp (insert cmp pick key value entries) := by
  induction entries with
  | nil => exact ascending_singleton
  | cons entry rest ih =>
      obtain ⟨hfirst, hrest⟩ := ascending_cons.mp h
      rw [SortedList.insert]
      cases hcmp : cmp key entry.1 with
      | lt =>
          refine ascending_cons.mpr ⟨?_, h⟩
          intro later hlater
          rcases List.mem_cons.mp hlater with rfl | hmem
          · exact hcmp
          · exact Std.TransCmp.lt_trans hcmp (hfirst later hmem)
      | eq =>
          refine ascending_cons.mpr ⟨?_, hrest⟩
          intro later hlater
          have hsame : cmp (pick entry.1 key) entry.1 = .eq :=
            Std.TransCmp.eq_trans (hpick _ _ hcmp) hcmp
          exact Std.TransCmp.lt_of_eq_of_lt hsame (hfirst later hlater)
      | gt =>
          refine ascending_cons.mpr ⟨?_, ih hrest⟩
          intro later hlater
          rcases mem_of_mem_insert hpick hlater with hsame | hmem
          · exact Std.TransCmp.lt_of_lt_of_eq (Std.OrientedCmp.gt_iff_lt.mp hcmp)
              (Std.OrientedCmp.eq_symm hsame)
          · exact hfirst later hmem

/-- What is found after an insertion. -/
theorem find_insert (hpick : Picks cmp pick) (h : Ascending cmp entries) :
    find cmp other (insert cmp pick key value entries) =
      if cmp other key = .eq then some value else find cmp other entries := by
  induction entries with
  | nil =>
      simp only [SortedList.insert, find]
      cases cmp other key <;> rfl
  | cons entry rest ih =>
      obtain ⟨_, hrest⟩ := ascending_cons.mp h
      rw [SortedList.insert]
      cases hkey : cmp key entry.1 with
      | lt =>
          simp only [find]
          cases hother : cmp other key with
          | lt => simp [Std.TransCmp.lt_trans hother hkey]
          | eq => rfl
          | gt => rfl
      | eq =>
          have hsame : cmp other key = cmp other entry.1 := Std.TransCmp.congr_right hkey
          have hpicked : cmp other (pick entry.1 key) = cmp other key :=
            Std.TransCmp.congr_right (hpick _ _ hkey)
          simp only [find, hpicked, ← hsame]
          cases cmp other key <;> rfl
      | gt =>
          simp only [find, ih hrest]
          cases hother : cmp other entry.1 with
          | lt =>
              have hlt := Std.TransCmp.lt_trans hother (Std.OrientedCmp.gt_iff_lt.mp hkey)
              simp [hlt]
          | eq =>
              have hlt := Std.TransCmp.lt_of_eq_of_lt hother (Std.OrientedCmp.gt_iff_lt.mp hkey)
              simp [hlt]
          | gt => rfl

/-- What is found after a removal. -/
theorem find_erase (h : Ascending cmp entries) :
    find cmp other (erase cmp key entries) =
      if cmp other key = .eq then none else find cmp other entries := by
  induction entries with
  | nil => simp [SortedList.erase]
  | cons entry rest ih =>
      obtain ⟨hfirst, hrest⟩ := ascending_cons.mp h
      rw [SortedList.erase]
      cases hkey : cmp key entry.1 with
      | lt =>
          by_cases heq : cmp other key = .eq
          · simp [heq, find, Std.TransCmp.lt_of_eq_of_lt heq hkey]
          · simp [heq]
      | eq =>
          have hsame : cmp other key = cmp other entry.1 := Std.TransCmp.congr_right hkey
          simp only [find, hsame]
          cases hother : cmp other entry.1 with
          | lt =>
              exact find_eq_none_of_lt fun later hlater =>
                Std.TransCmp.lt_trans hother (hfirst later hlater)
          | eq =>
              exact find_eq_none_of_lt fun later hlater =>
                Std.TransCmp.lt_of_eq_of_lt hother (hfirst later hlater)
          | gt => rfl
      | gt =>
          simp only [find, ih hrest]
          cases hother : cmp other entry.1 with
          | lt =>
              have hlt := Std.TransCmp.lt_trans hother (Std.OrientedCmp.gt_iff_lt.mp hkey)
              simp [hlt]
          | eq =>
              have hlt := Std.TransCmp.lt_of_eq_of_lt hother (Std.OrientedCmp.gt_iff_lt.mp hkey)
              simp [hlt]
          | gt => rfl

/-- Two entries whose keys compare equal are one. -/
theorem Ascending.eq_of_eq {later : κ × ν} (h : Ascending cmp entries) (hentry : entry ∈ entries)
    (hlater : later ∈ entries) (heq : cmp entry.1 later.1 = .eq) : entry = later := by
  induction entries with
  | nil => cases hentry
  | cons first rest ih =>
      obtain ⟨hfirst, hrest⟩ := ascending_cons.mp h
      rcases List.mem_cons.mp hentry with rfl | hmem <;>
        rcases List.mem_cons.mp hlater with rfl | hmem'
      · rfl
      · simp [hfirst later hmem'] at heq
      · simp [Std.OrientedCmp.gt_iff_lt.mpr (hfirst entry hmem)] at heq
      · exact ih hrest hmem hmem'

/-- A list of entries has one ascending order. -/
theorem Ascending.eq_of_perm {entries' : List (κ × ν)} (h : Ascending cmp entries)
    (h' : Ascending cmp entries') (hperm : entries.Perm entries') : entries = entries' :=
  hperm.eq_of_pairwise (fun a b ha hb hab hba => by
    rw [Std.OrientedCmp.gt_iff_lt.mpr hab] at hba
    cases hba) h h'

/-- Entries of which no two have one key can be put in order. -/
theorem exists_ascending (h : entries.Pairwise fun entry later => cmp entry.1 later.1 ≠ .eq) :
    ∃ entries', entries.Perm entries' ∧ Ascending cmp entries' := by
  have hperm := List.mergeSort_perm entries fun entry later => (cmp entry.1 later.1).isLE
  refine ⟨_, hperm.symm, ?_⟩
  have hsorted : (entries.mergeSort fun entry later => (cmp entry.1 later.1).isLE).Pairwise
      fun entry later => (cmp entry.1 later.1).isLE = true := by
    refine List.pairwise_mergeSort (fun _ _ _ => Std.TransCmp.isLE_trans) (fun a b => ?_) entries
    rw [@Std.OrientedCmp.eq_swap κ cmp _ b.1 a.1]
    cases cmp a.1 b.1 <;> rfl
  have hdistinct := hperm.symm.pairwise h fun hne heq => hne (Std.OrientedCmp.eq_symm heq)
  refine (hsorted.and hdistinct).imp fun ⟨hle, hne⟩ => ?_
  cases hcmp : cmp _ _ with
  | lt => rfl
  | eq => exact absurd hcmp hne
  | gt => simp [hcmp] at hle

/-- An entry is found under its key. -/
theorem find_of_mem (h : Ascending cmp entries) (hentry : entry ∈ entries) :
    find cmp entry.1 entries = some entry.2 := by
  induction entries with
  | nil => cases hentry
  | cons first rest ih =>
      obtain ⟨hfirst, hrest⟩ := ascending_cons.mp h
      rcases List.mem_cons.mp hentry with rfl | hmem
      · simp [find, Std.ReflCmp.compare_self]
      · rw [find, Std.OrientedCmp.gt_iff_lt.mpr (hfirst entry hmem)]
        exact ih hrest hmem

end Total

section Found

theorem exists_mem_of_find (h : find cmp key entries = some value) :
    ∃ entry ∈ entries, cmp key entry.1 = .eq ∧ entry.2 = value := by
  induction entries with
  | nil => cases h
  | cons entry rest ih =>
      rw [find] at h
      cases hcmp : cmp key entry.1 with
      | lt => simp [hcmp] at h
      | eq =>
          rw [hcmp] at h
          exact ⟨entry, List.mem_cons_self, hcmp, Option.some.inj h⟩
      | gt =>
          rw [hcmp] at h
          obtain ⟨found, hmem, hfound⟩ := ih h
          exact ⟨found, List.mem_cons_of_mem _ hmem, hfound⟩

variable [Std.TransCmp cmp]

theorem find_congr (h : cmp key other = .eq) : find cmp key entries = find cmp other entries := by
  induction entries with
  | nil => rfl
  | cons entry rest ih => rw [find, find, ih, Std.TransCmp.congr_left h]

/-- Found is what has a key that compares equal. -/
theorem find_eq_some_iff (h : Ascending cmp entries) :
    find cmp key entries = some value ↔
      ∃ entry ∈ entries, cmp key entry.1 = .eq ∧ entry.2 = value := by
  refine ⟨exists_mem_of_find, ?_⟩
  rintro ⟨entry, hmem, heq, rfl⟩
  exact (find_congr heq).trans (find_of_mem h hmem)

end Found

section Lawful

variable [Std.LawfulEqCmp cmp]

theorem mem_of_find (h : find cmp key entries = some value) : (key, value) ∈ entries := by
  induction entries with
  | nil => cases h
  | cons entry rest ih =>
      rw [find] at h
      cases hcmp : cmp key entry.1 with
      | lt => simp [hcmp] at h
      | eq =>
          rw [hcmp] at h
          obtain rfl := Option.some.inj h
          rw [Std.LawfulEqCmp.eq_of_compare hcmp]
          exact List.mem_cons_self
      | gt =>
          rw [hcmp] at h
          exact List.mem_cons_of_mem _ (ih h)

/-- A dictionary is what is found in it. -/
theorem ext [Std.TransCmp cmp] {entries' : List (κ × ν)} (h : Ascending cmp entries)
    (h' : Ascending cmp entries')
    (hfind : ∀ key, find cmp key entries = find cmp key entries') : entries = entries' := by
  have hmem : ∀ entry, entry ∈ entries ↔ entry ∈ entries' := by
    intro entry
    constructor
    · intro hentry
      exact mem_of_find ((hfind entry.1).symm.trans (find_of_mem h hentry))
    · intro hentry
      exact mem_of_find ((hfind entry.1).trans (find_of_mem h' hentry))
  have hnodup : ∀ {entries : List (κ × ν)}, Ascending cmp entries → entries.Nodup := by
    intro entries hasc
    refine hasc.imp ?_
    rintro a b hlt rfl
    simp [Std.ReflCmp.compare_self] at hlt
  exact h.eq_of_perm h' ((List.perm_ext_iff_of_nodup (hnodup h) (hnodup h')).mpr hmem)

end Lawful

end SortedList
