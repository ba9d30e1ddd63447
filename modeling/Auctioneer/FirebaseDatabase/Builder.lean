import Auctioneer.FirebaseDatabase.Balance
import Auctioneer.FirebaseDatabase.SortedDictionary
import Mathlib.Data.Nat.Bitwise

/-!
The tree that is built from sorted entries is balanced and holds them all: each
digit of the length in base 1 and 2 adds one black level.
-/

namespace FirebaseDatabase.FTreeSortedDictionary

open FLLRBNode

variable {κ ν : Type*} {cmp : κ → κ → Ordering} {entries : List (κ × ν)} {startIndex : Nat}

theorem take_middle {α : Type*} (l : List α) (m n : Nat) (h : m < l.length) :
    l.take (m + 1 + n) = l.take m ++ l[m] :: (l.drop (m + 1)).take n := by
  rw [List.take_add, List.take_add_one, List.getElem?_eq_getElem h, List.append_assoc]
  rfl

/-- One less than a power of two keys make a tree of black nodes only. -/
theorem buildBalancedTree_perfect (height : Nat)
    (h : startIndex + (2 ^ height - 1) ≤ entries.length) :
    ∃ t, buildBalancedTree entries startIndex (2 ^ height - 1) = some t ∧
      Balanced t .black height ∧ t.entries = (entries.drop startIndex).take (2 ^ height - 1) := by
  induction height generalizing startIndex with
  | zero =>
      refine ⟨.empty, ?_, .empty, rfl⟩
      rw [buildBalancedTree]
      simp
  | succ height ih =>
      have hpos := Nat.two_pow_pos height
      rw [show 2 ^ (height + 1) - 1 = 2 ^ height - 1 + 1 + (2 ^ height - 1) by
        rw [pow_succ]; omega] at h ⊢
      obtain ⟨left, hleft, hleftb, hlefte⟩ := @ih startIndex (by omega)
      obtain ⟨right, hright, hrightb, hrighte⟩ := @ih (startIndex + (2 ^ height - 1) + 1) (by omega)
      generalize 2 ^ height - 1 = middle at h hleft hlefte hright hrighte ⊢
      have hget : startIndex + middle < entries.length := by omega
      have hdrop : middle < (entries.drop startIndex).length := by
        rw [List.length_drop]
        omega
      refine ⟨.node .black left entries[startIndex + middle].1 entries[startIndex + middle].2 right,
        ?_, .black hleftb hrightb, ?_⟩
      · rw [buildBalancedTree]
        have hmin : Nat.min (entries.length - startIndex) (middle + 1 + middle) =
            middle + 1 + middle := Nat.min_eq_right (by omega)
        have hhalf : (middle + 1 + middle) / 2 = middle := by omega
        simp only [hmin, hhalf]
        rw [if_neg (by omega)]
        split
        · have hzero : middle = 0 := by omega
          subst hzero
          obtain rfl : left = .empty := by
            cases left with
            | empty => rfl
            | node => simp [FLLRBNode.entries] at hlefte
          obtain rfl : right = .empty := by
            cases right with
            | empty => rfl
            | node => simp [FLLRBNode.entries] at hrighte
          simp
        · simp [hleft, hright, List.getElem?_eq_getElem hget]
      · rw [take_middle _ _ _ hdrop, FLLRBNode.entries, hlefte, hrighte, List.getElem_drop,
          List.drop_drop, Nat.add_assoc startIndex]

section Pennant

variable {color : FLLRBColor} {current index : Nat} {next : Nat → Option (FLLRBNode κ ν)}
  {left : FLLRBNode κ ν}

/-- A pennant over all the entries up to an index, when what is built from the
ones before it is there. -/
theorem buildPennant_eq (hchunk : 2 ^ current ≤ index) (hindex : index ≤ entries.length)
    (hnext : next (index - 2 ^ current) = some left)
    (hentries : left.entries = entries.take (index - 2 ^ current)) :
    ∃ key value right, buildPennant entries color (2 ^ current) index next =
        some (.node color left key value right) ∧ Balanced right .black current ∧
      FLLRBNode.entries (.node color left key value right) = entries.take index := by
  have hpos := Nat.two_pow_pos current
  have hget : index - 2 ^ current < entries.length := by omega
  obtain ⟨right, hright, hbalanced, hrighte⟩ :=
    @buildBalancedTree_perfect κ ν entries (index - 2 ^ current + 1) current (by omega)
  refine ⟨entries[index - 2 ^ current].1, entries[index - 2 ^ current].2, right, ?_, hbalanced, ?_⟩
  · rw [buildPennant, if_neg (by omega)]
    simp [hright, hnext, List.getElem?_eq_getElem hget]
  · rw [FLLRBNode.entries, hentries, hrighte]
    have hsplit := take_middle entries (index - 2 ^ current) (2 ^ current - 1) hget
    rw [show index - 2 ^ current + 1 + (2 ^ current - 1) = index by omega] at hsplit
    exact hsplit.symm

end Pennant

/-- With `current` digits left, the entries up to the index are those that the
digits stand for. -/
theorem rootFrom12List_spec {bits current index : Nat} (hindex : index ≤ entries.length)
    (hdigits : index + 1 = 2 ^ current + bits % 2 ^ current) :
    ∃ t, rootFrom12List entries bits current index = some t ∧ Balanced t .black current ∧
      t.entries = entries.take index := by
  induction current generalizing index with
  | zero =>
      obtain rfl : index = 0 := by simpa [Nat.mod_one] using hdigits
      exact ⟨.empty, rfl, .empty, rfl⟩
  | succ current ih =>
      have hpos := Nat.two_pow_pos current
      rw [Nat.mod_pow_succ, ← Nat.toNat_testBit, pow_succ] at hdigits
      cases hbit : bits.testBit current with
      | false =>
          simp only [hbit, Bool.toNat_false, Nat.mul_zero] at hdigits
          obtain ⟨left, hleft, hbalanced, hentries⟩ :=
            @ih (index - 2 ^ current) (by omega) (by omega)
          obtain ⟨key, value, right, hbuild, hright, hall⟩ := @buildPennant_eq κ ν entries .black
            current index _ left (by omega) hindex hleft hentries
          refine ⟨_, ?_, .black hbalanced hright, hall⟩
          simpa [rootFrom12List, hbit] using hbuild
      | true =>
          simp only [hbit, Bool.toNat_true, Nat.mul_one] at hdigits
          obtain ⟨left, hleft, hbalanced, hentries⟩ :=
            @ih (index - 2 ^ current - 2 ^ current) (by omega) (by omega)
          obtain ⟨key', value', middle, hred, hmiddle, htake⟩ := @buildPennant_eq κ ν entries .red
            current (index - 2 ^ current) _ left (by omega) (by omega) hleft hentries
          obtain ⟨key, value, right, hbuild, hright, hall⟩ := @buildPennant_eq κ ν entries .black
            current index (fun index => buildPennant entries .red (2 ^ current) index
              (rootFrom12List entries bits current)) _ (by omega) hindex hred htake
          refine ⟨_, ?_, .black (.red hbalanced hmiddle) hright, hall⟩
          simpa [rootFrom12List, hbit] using hbuild

theorem fromEntries_spec (entries : List (κ × ν)) :
    ∃ t, fromEntries entries = some t ∧ (∃ height, Balanced t .black height) ∧
      t.entries = entries := by
  have hlow : 2 ^ (entries.length + 1).log2 ≤ entries.length + 1 :=
    Nat.log2_self_le (Nat.succ_ne_zero _)
  have hhigh : entries.length + 1 < 2 ^ ((entries.length + 1).log2 + 1) := Nat.lt_log2_self
  rw [pow_succ] at hhigh
  obtain ⟨t, ht, hbalanced, hentries⟩ := @rootFrom12List_spec κ ν entries
    ((entries.length + 1) &&& (2 ^ (entries.length + 1).log2 - 1)) (entries.length + 1).log2
    entries.length le_rfl (by
      rw [Nat.and_two_pow_sub_one_eq_mod, Nat.mod_mod, Nat.mod_eq_sub_mod hlow,
        Nat.mod_eq_of_lt (by omega)]
      omega)
  exact ⟨t, ht, ⟨_, hbalanced⟩, by rw [hentries, List.take_length]⟩

end FirebaseDatabase.FTreeSortedDictionary
