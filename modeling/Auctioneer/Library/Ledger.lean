import Mathlib.Algebra.BigOperators.Group.Finset.Basic
import Mathlib.Algebra.BigOperators.Group.List.Basic
import Mathlib.Algebra.Order.BigOperators.Group.List
import Mathlib.Data.List.Nodup

/-!
Sums over the entries of a ledger whose entries have owners, taken owner by
owner or all at once, and the total of an amount that only finitely many owners
have.
-/

namespace Ledger

variable {O I V : Type*} [DecidableEq O]

section Owners

variable [AddCommMonoid V] {owners : List O}

/-- One amount, counted only for its owner. -/
theorem sum_ite_owner (hnodup : owners.Nodup) {owner : O} (hmem : owner ∈ owners)
    (amount : V) : (owners.map fun o => if owner = o then amount else 0).sum = amount := by
  induction owners with
  | nil => cases hmem
  | cons o rest ih =>
      obtain ⟨hnot, hrest⟩ := List.nodup_cons.mp hnodup
      by_cases heq : owner = o
      · subst heq
        have hzero : (rest.map fun o => if owner = o then amount else 0) =
            rest.map fun _ => 0 := by
          refine List.map_congr_left fun o ho => ?_
          rw [if_neg]
          rintro rfl
          exact hnot ho
        simp [hzero]
      · simp [heq, ih hrest ((List.mem_cons.mp hmem).resolve_left heq)]

/-- If owners are distinct, the sums of what each owns add up to the sum of all
entries that are owned or empty. -/
theorem sum_by_owner (hnodup : owners.Nodup) (owner : I → O) (amount : I → V)
    {entries : List I} (howned : ∀ i ∈ entries, owner i ∈ owners ∨ amount i = 0) :
    (owners.map fun o => ((entries.filter fun i => owner i = o).map amount).sum).sum =
      (entries.map amount).sum := by
  induction entries with
  | nil => simp
  | cons i rest ih =>
      have hrest := ih fun j hj => howned j (List.mem_cons_of_mem i hj)
      have hsplit : ∀ o, (((i :: rest).filter fun i => owner i = o).map amount).sum =
          (if owner i = o then amount i else 0) +
            ((rest.filter fun i => owner i = o).map amount).sum := by
        intro o
        by_cases heq : owner i = o <;> simp [heq]
      have hfirst : (owners.map fun o => if owner i = o then amount i else 0).sum =
          amount i := by
        rcases howned i List.mem_cons_self with hmem | hzero
        · exact sum_ite_owner hnodup hmem (amount i)
        · simp [hzero]
      simp only [hsplit, List.sum_map_add, hrest, hfirst, List.map_cons, List.sum_cons]

end Owners

/-- The sum of a selection that is made of two which have nothing in common. -/
theorem sum_filter_split [AddCommMonoid V] {p q r : I → Bool}
    (hsplit : ∀ i, r i = (p i || q i)) (hapart : ∀ i, p i = true → q i = false)
    (amount : I → V) (entries : List I) :
    ((entries.filter r).map amount).sum =
      ((entries.filter p).map amount).sum + ((entries.filter q).map amount).sum := by
  induction entries with
  | nil => simp
  | cons i rest ih =>
      simp only [List.filter_cons, hsplit i]
      cases hp : p i with
      | true => simp [hapart i hp, ih, add_assoc]
      | false => cases q i <;> simp [ih, add_left_comm]

/-- Of entries that are not negative, a part has the sum of the whole exactly
when the rest is empty. -/
theorem sum_filter_eq_iff [AddCommGroup V] [PartialOrder V] [IsOrderedAddMonoid V]
    (p : I → Prop) [DecidablePred p] (amount : I → V) {entries : List I}
    (hnonneg : ∀ i ∈ entries, 0 ≤ amount i) :
    ((entries.filter p).map amount).sum = (entries.map amount).sum ↔
      ∀ i ∈ entries, ¬ p i → amount i = 0 := by
  rw [← List.sum_map_filter_add_sum_map_filter_not p amount entries, left_eq_add]
  constructor
  · intro hzero i hi hp
    refine List.all_zero_of_le_zero_le_of_sum_eq_zero ?_ hzero
      (List.mem_map_of_mem (List.mem_filter.mpr ⟨hi, by simpa using hp⟩))
    intro v hv
    obtain ⟨j, hj, rfl⟩ := List.mem_map.mp hv
    exact hnonneg j (List.mem_filter.mp hj).1
  · intro hrest
    refine List.sum_eq_zero ?_
    intro v hv
    obtain ⟨j, hj, rfl⟩ := List.mem_map.mp hv
    obtain ⟨hmem, hnot⟩ := List.mem_filter.mp hj
    exact hrest j hmem (by simpa using hnot)

/-- Only finitely many owners have any of an amount, and together they have
`total`. -/
def Tally (amount : O → ℕ) (total : ℕ) : Prop :=
  ∃ owners : Finset O, (∀ o ∉ owners, amount o = 0) ∧ ∑ o ∈ owners, amount o = total

namespace Tally

variable {amount amount' : O → ℕ} {total : ℕ}

omit [DecidableEq O] in
theorem zero : Tally (fun _ : O => 0) 0 := ⟨∅, by simp, by simp⟩

omit [DecidableEq O] in
theorem eq_zero (h : Tally amount total) (hzero : ∀ o, amount o = 0) : total = 0 := by
  obtain ⟨owners, _, rfl⟩ := h
  simp [hzero]

/-- When one owner's amount changes, the total changes by as much. -/
theorem update (h : Tally amount total) (owner : O)
    (hother : ∀ o ≠ owner, amount' o = amount o) :
    ∃ total', Tally amount' total' ∧ total' + amount owner = total + amount' owner := by
  obtain ⟨owners, hnone, rfl⟩ := h
  refine ⟨∑ o ∈ insert owner owners, amount' o, ⟨insert owner owners, ?_, rfl⟩, ?_⟩
  · intro o ho
    simp only [Finset.mem_insert, not_or] at ho
    rw [hother o ho.1, hnone o ho.2]
  have hsum : ∑ o ∈ owners, amount o = ∑ o ∈ insert owner owners, amount o := by
    refine Finset.sum_subset (Finset.subset_insert owner owners) ?_
    intro o _ ho
    exact hnone o ho
  have hrest : ∑ o ∈ (insert owner owners).erase owner, amount' o =
      ∑ o ∈ (insert owner owners).erase owner, amount o :=
    Finset.sum_congr rfl fun o ho => hother o (Finset.ne_of_mem_erase ho)
  have hmem := Finset.mem_insert_self owner owners
  rw [hsum, ← Finset.sum_erase_add _ amount' hmem, ← Finset.sum_erase_add _ amount hmem, hrest]
  omega

end Tally

end Ledger
