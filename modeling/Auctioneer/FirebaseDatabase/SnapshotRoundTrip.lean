import Auctioneer.FirebaseDatabase.SnapshotUtilities
import Mathlib.Data.List.TakeWhile
import Mathlib.Tactic.IntervalCases

/-!
A stored value is read back with the same leaves, whatever became of its arrays,
its nulls and its empty objects, and storing what was read changes nothing.
-/

namespace FirebaseDatabase

open Auctioneer (Value)
open FUtilities (compareKey)
open FSnapshotUtilities FValidation FNode
open SortedList (Ascending)

/-- The decimal digits of a key are ASCII ones. -/
def Spelled (isDecimalDigit : Char → Bool) (key : String) : Prop :=
  ∀ c ∈ key.toList, isDecimalDigit c = true → c.isDigit = true

namespace Json

/-- What is directly below, under the keys that the items of an array get. -/
def members : Json → List (String × Json)
  | .null => []
  | .value _ => []
  | .dictionary dval => dval
  | .array aval => aval.zipIdx.map fun item => (toString item.2, item.1)

/-- A path leads to the leaf, by keys that compare equal. -/
def HasLeaf (value : Value) : List String → Json → Prop
  | [], json => json = .value value
  | front :: rest, json =>
      ∃ member ∈ json.members, compareKey front member.1 = .eq ∧ HasLeaf value rest member.2

/-- No key is one of the payload's metadata. -/
inductive Plain (isDecimalDigit : Char → Bool) : Json → Prop where
  | intro {json : Json} :
      (∀ member ∈ json.members,
        hasMetadataPrefix member.1 = false ∧ Spelled isDecimalDigit member.1) →
      (∀ member ∈ json.members, Plain isDecimalDigit member.2) → Plain isDecimalDigit json

theorem sizeOf_lt_of_mem {json : Json} {member : String × Json} (h : member ∈ json.members) :
    sizeOf member.2 < sizeOf json := by
  cases json with
  | null => cases h
  | value => cases h
  | dictionary dval =>
      have hlt : sizeOf member < sizeOf dval := List.sizeOf_lt_of_mem h
      have hmember : sizeOf member = 1 + sizeOf member.1 + sizeOf member.2 := by
        cases member
        rfl
      rw [dictionary.sizeOf_spec]
      omega
  | array aval =>
      obtain ⟨item, hitem, rfl⟩ := List.mem_map.mp h
      have hlt := List.sizeOf_lt_of_mem (List.fst_mem_of_mem_zipIdx hitem)
      rw [array.sizeOf_spec]
      change sizeOf item.1 < _
      omega

theorem memberInduction {motive : Json → Prop}
    (step : ∀ json, (∀ member ∈ json.members, motive member.2) → motive json) (json : Json) :
    motive json :=
  step json fun member _ => memberInduction step member.2
termination_by sizeOf json
decreasing_by exact sizeOf_lt_of_mem ‹_›

theorem not_hasLeaf_null (value : Value) (place : List String) : ¬HasLeaf value place .null := by
  cases place with
  | nil => exact fun h => by cases h
  | cons front rest => rintro ⟨member, hmember, _⟩; cases hmember

end Json

namespace FSnapshotUtilities

variable {fn : String} {depth : ℕ} {path : List String} {json : Json} {node : FNode Value}
  {members : List (String × Json)} {children : List (String × FNode Value)}
  {isDecimalDigit : Char → Bool}

/-- The children are the nodes of the members that are not empty. -/
structure Converted (fn : String) (depth : ℕ) (path : List String)
    (members : List (String × Json)) (children : List (String × FNode Value)) : Prop where
  source : ∀ child ∈ children, child.2.isEmpty = false ∧ ∃ member ∈ members,
    member.1 = child.1 ∧ nodeFrom fn (depth + 1) (path ++ [member.1]) member.2 = .ok child.2
  image : ∀ member ∈ members, ∃ node,
    nodeFrom fn (depth + 1) (path ++ [member.1]) member.2 = .ok node ∧
    (node.isEmpty = false → (member.1, node) ∈ children)

theorem Converted.cons {key : String} (h : Converted fn depth path members children)
    (hnode : nodeFrom fn (depth + 1) (path ++ [key]) json = .ok node) :
    Converted fn depth path ((key, json) :: members)
      (if node.isEmpty then children else (key, node) :: children) := by
  constructor
  · intro child hchild
    have hcases : child ∈ children ∨ node.isEmpty = false ∧ child = (key, node) := by
      split at hchild
      · exact .inl hchild
      · next hfull =>
        exact (List.mem_cons.mp hchild).elim (fun heq => .inr ⟨by simpa using hfull, heq⟩) .inl
    rcases hcases with hmem | ⟨hfull, rfl⟩
    · obtain ⟨hfull, member, hmember, hsource⟩ := h.source child hmem
      exact ⟨hfull, member, List.mem_cons_of_mem _ hmember, hsource⟩
    · exact ⟨hfull, (key, json), List.mem_cons_self, rfl, hnode⟩
  · intro member hmember
    rcases List.mem_cons.mp hmember with rfl | hmem
    · exact ⟨node, hnode, fun hfull => by simp [hfull]⟩
    · obtain ⟨found, hfound, himage⟩ := h.image member hmem
      refine ⟨found, hfound, fun hfull => ?_⟩
      split
      · exact himage hfull
      · exact List.mem_cons_of_mem _ (himage hfull)

theorem converted_dictionary {dval : List (String × Json)}
    (hplain : ∀ member ∈ dval, hasMetadataPrefix member.1 = false)
    (h : dictionaryChildren fn depth path dval = .ok children) :
    Converted fn depth path dval children ∧ ∀ member ∈ dval, isValidKey member.1 = true := by
  induction dval generalizing children with
  | nil =>
      obtain rfl := Except.ok.inj h
      exact ⟨⟨List.forall_mem_nil _, List.forall_mem_nil _⟩, List.forall_mem_nil _⟩
  | cons member rest ih =>
      obtain ⟨key, value⟩ := member
      obtain ⟨hkey, hrest⟩ := List.forall_mem_cons.mp hplain
      rw [dictionaryChildren, Traverse.bind_eq_ok] at h
      obtain ⟨_, hvalid, h⟩ := h
      rw [if_neg (by simp [hkey]), Traverse.bind_eq_ok] at h
      obtain ⟨childNode, hnode, h⟩ := h
      obtain ⟨others, hothers, h⟩ := Traverse.bind_eq_ok.mp h
      obtain rfl := Except.ok.inj h
      obtain ⟨hconverted, hall⟩ := ih hrest hothers
      refine ⟨hconverted.cons hnode, List.forall_mem_cons.mpr ⟨?_, hall⟩⟩
      rw [validDictionaryKey] at hvalid
      split at hvalid
      · cases hvalid
      · next hnot =>
        have hdot {text : String} (hmeta : hasMetadataPrefix text = true) : key ≠ text :=
          fun heq => by simp [heq, hmeta] at hkey
        have hinvalid := fun hinvalid => hnot ⟨hdot (by decide), hdot (by decide),
          hdot (by decide), hinvalid⟩
        simpa using hinvalid

theorem converted_array {aval : List Json} {i : ℕ}
    (h : arrayChildren fn depth path i aval = .ok children) :
    Converted fn depth path ((aval.zipIdx i).map fun item => (toString item.2, item.1))
      children := by
  induction aval generalizing i children with
  | nil =>
      obtain rfl := Except.ok.inj h
      exact ⟨List.forall_mem_nil _, List.forall_mem_nil _⟩
  | cons item rest ih =>
      rw [arrayChildren, Traverse.bind_eq_ok] at h
      obtain ⟨childNode, hnode, h⟩ := h
      obtain ⟨others, hothers, h⟩ := Traverse.bind_eq_ok.mp h
      obtain rfl := Except.ok.inj h
      exact (ih hothers).cons hnode

/-- No child gives the empty node. -/
theorem childrenNode_eq_ok (h : childrenNode children = .ok node) :
    ∃ someChildren, node = .children someChildren ∧ children.Perm someChildren.entries ∧
      FImmutableSortedDictionary.Sound compareKey someChildren := by
  rw [childrenNode] at h
  split at h
  · next hempty =>
    obtain rfl := Except.ok.inj h
    obtain rfl := List.isEmpty_iff.mp hempty
    exact ⟨_, rfl, .refl _, SortedList.ascending_nil, Nat.zero_le _⟩
  · cases hdictionary : FImmutableSortedDictionary.fromDictionary compareKey children with
    | error reason => simp [hdictionary, Except.map] at h
    | ok someChildren =>
        rw [hdictionary] at h
        obtain rfl := Except.ok.inj h
        exact ⟨someChildren, rfl, FImmutableSortedDictionary.fromDictionary_eq_ok hdictionary⟩

/-- Within the limits of what can be stored, at a depth and below it. -/
inductive Fits (isDecimalDigit : Char → Bool) : ℕ → FNode Value → Prop where
  | leaf {depth : ℕ} {value : Value} : depth ≤ maxObjectDepth →
      (∀ fn path, validLeafValue fn path value = .ok ()) → Fits isDecimalDigit depth (.leaf value)
  | children {depth : ℕ} {someChildren : FImmutableSortedDictionary String (FNode Value)} :
      depth ≤ maxObjectDepth →
      (∀ entry ∈ someChildren.entries,
        isValidKey entry.1 = true ∧ Spelled isDecimalDigit entry.1) →
      (∀ entry ∈ someChildren.entries, Fits isDecimalDigit (depth + 1) entry.2) →
      Fits isDecimalDigit depth (.children someChildren)

theorem Fits.le (h : Fits isDecimalDigit depth node) : depth ≤ maxObjectDepth := by
  cases h <;> assumption

theorem isDigit_of_mem_toString {n : ℕ} {c : Char} (h : c ∈ (toString n).toList) :
    c.isDigit = true := by
  rw [Nat.toString_eq_ofList_toDigits, String.toList_ofList] at h
  exact Nat.isDigit_of_mem_toDigits (by decide) (by decide) h

theorem isValidKey_toString (n : ℕ) : isValidKey (toString n) = true := by
  have hinvalid : invalidKeyCharacters.all (fun c => !c.isDigit) = true := by decide
  rw [isValidKey, Bool.and_eq_true]
  constructor
  · rw [Nat.toString_eq_ofList_toDigits, Bool.not_eq_true', ← Bool.not_eq_true, String.isEmpty_iff]
    intro hempty
    have hnil := congrArg String.toList hempty
    rw [String.toList_ofList] at hnil
    exact Nat.toDigits_ne_nil hnil
  · rw [List.all_eq_true]
    intro c hc
    rw [Bool.not_eq_true', ← Bool.not_eq_true, List.contains_iff_mem]
    intro hmem
    simpa [isDigit_of_mem_toString hc] using List.all_eq_true.mp hinvalid c hmem

theorem members_of_nodeFrom (hplain : json.Plain isDecimalDigit)
    (h : nodeFrom fn depth path json = .ok node) :
    depth ≤ maxObjectDepth ∧
      ((∃ value, json = .value value ∧ node = .leaf value ∧
          validLeafValue fn path value = .ok ()) ∨
        (∀ value, json ≠ .value value) ∧ (∀ member ∈ json.members, isValidKey member.1 = true) ∧
        ∃ children, Converted fn depth path json.members children ∧
          childrenNode children = .ok node) := by
  have hdot : ∀ member ∈ json.members, hasMetadataPrefix member.1 = false := by
    cases hplain with
    | intro hkeys _ => exact fun member hmember => (hkeys member hmember).1
  cases json with
  | null =>
      obtain ⟨_, hdepth, h⟩ := Traverse.bind_eq_ok.mp h
      refine ⟨validDepth_eq_ok.mp hdepth, .inr ⟨fun _ heq => (by cases heq),
        List.forall_mem_nil _, [], ⟨List.forall_mem_nil _, List.forall_mem_nil _⟩, h⟩⟩
  | value value =>
      obtain ⟨_, hdepth, h⟩ := Traverse.bind_eq_ok.mp h
      obtain ⟨_, hvalid, h⟩ := Traverse.bind_eq_ok.mp h
      exact ⟨validDepth_eq_ok.mp hdepth, .inl ⟨value, rfl, (Except.ok.inj h).symm, hvalid⟩⟩
  | dictionary dval =>
      obtain ⟨_, hdepth, h⟩ := Traverse.bind_eq_ok.mp h
      obtain ⟨children, hchildren, h⟩ := Traverse.bind_eq_ok.mp h
      obtain ⟨hconverted, hvalid⟩ := converted_dictionary hdot hchildren
      exact ⟨validDepth_eq_ok.mp hdepth, .inr ⟨fun _ heq => (by cases heq), hvalid,
        children, hconverted, h⟩⟩
  | array aval =>
      obtain ⟨_, hdepth, h⟩ := Traverse.bind_eq_ok.mp h
      obtain ⟨children, hchildren, h⟩ := Traverse.bind_eq_ok.mp h
      refine ⟨validDepth_eq_ok.mp hdepth, .inr ⟨fun _ heq => (by cases heq), ?_,
        children, converted_array hchildren, h⟩⟩
      intro member hmember
      obtain ⟨item, _, rfl⟩ := List.mem_map.mp hmember
      exact isValidKey_toString item.2

theorem leafAt_cons_iff {someChildren : FImmutableSortedDictionary String (FNode Value)}
    (h : Sound (.children someChildren)) {front : String} {rest : List String} {value : Value} :
    leafAt (front :: rest) (.children someChildren) = some value ↔
      ∃ entry ∈ someChildren.entries, compareKey front entry.1 = .eq ∧
        leafAt rest entry.2 = some value := by
  rw [leafAt_cons, getImmediateChild_eq h]
  cases h with
  | children hsound _ _ =>
      constructor
      · intro hvalue
        cases hfind : SortedList.find compareKey front someChildren.entries with
        | none => simp [hfind] at hvalue
        | some child =>
            obtain ⟨entry, hentry, heq, rfl⟩ := SortedList.exists_mem_of_find hfind
            exact ⟨entry, hentry, heq, by simpa [hfind] using hvalue⟩
      · rintro ⟨entry, hentry, heq, hvalue⟩
        rw [(SortedList.find_eq_some_iff hsound.ascending).mpr ⟨entry, hentry, heq, rfl⟩]
        exact hvalue

/-- The node of a value has the value's leaves. -/
theorem nodeFrom_spec (hplain : json.Plain isDecimalDigit)
    (h : nodeFrom fn depth path json = .ok node) :
    Sound node ∧ Fits isDecimalDigit depth node ∧
      ∀ place value, leafAt place node = some value ↔ json.HasLeaf value place := by
  induction json using Json.memberInduction generalizing depth path node with
  | step json ih =>
  obtain ⟨hdepth, ⟨value, rfl, rfl, hvalid⟩ | ⟨hvalue, hkeys, children, hconverted, hnode⟩⟩ :=
    members_of_nodeFrom hplain h
  · refine ⟨.leaf value, .leaf hdepth fun fn' path' => ?_, fun place found => ?_⟩
    · cases value with
      | number => rfl
      | string theString =>
          rw [validLeafValue] at hvalid ⊢
          split at hvalid
          · cases hvalid
          · next hsmall => rw [if_neg hsmall]
    · cases place with
      | nil => simp [Json.HasLeaf]
      | cons front rest => simp [Json.HasLeaf, Json.members]
  · cases hplain with
    | intro hspelled hbelow =>
    obtain ⟨someChildren, rfl, hperm, hsound⟩ := childrenNode_eq_ok hnode
    have hentry : ∀ entry ∈ someChildren.entries, entry.2.isEmpty = false ∧
        ∃ member ∈ json.members, member.1 = entry.1 ∧ Sound entry.2 ∧
          Fits isDecimalDigit (depth + 1) entry.2 ∧
          ∀ place value, leafAt place entry.2 = some value ↔ member.2.HasLeaf value place := by
      intro entry hmem
      obtain ⟨hfull, member, hmember, hkey, hmade⟩ :=
        hconverted.source entry (hperm.mem_iff.mpr hmem)
      exact ⟨hfull, member, hmember, hkey, ih member hmember (hbelow member hmember) hmade⟩
    have hsoundNode : Sound (.children someChildren) :=
      .children hsound (fun entry hmem => (hentry entry hmem).2.choose_spec.2.2.1)
        fun entry hmem => (hentry entry hmem).1
    refine ⟨hsoundNode, .children hdepth ?_ ?_, fun place value => ?_⟩
    · intro entry hmem
      obtain ⟨_, member, hmember, hkey, _⟩ := hentry entry hmem
      exact hkey ▸ ⟨hkeys member hmember, (hspelled member hmember).2⟩
    · exact fun entry hmem => (hentry entry hmem).2.choose_spec.2.2.2.1
    · cases place with
      | nil =>
          exact iff_of_false (fun h => by cases h) (hvalue value)
      | cons front rest =>
          rw [leafAt_cons_iff hsoundNode, Json.HasLeaf]
          constructor
          · rintro ⟨entry, hmem, heq, hleaf⟩
            obtain ⟨_, member, hmember, hkey, _, _, hleaves⟩ := hentry entry hmem
            exact ⟨member, hmember, hkey ▸ heq, (hleaves rest value).mp hleaf⟩
          · rintro ⟨member, hmember, heq, hleaf⟩
            obtain ⟨child, hmade, himage⟩ := hconverted.image member hmember
            obtain ⟨hchild, _, hleaves⟩ := ih member hmember (hbelow member hmember) hmade
            have hvalue := (hleaves rest value).mpr hleaf
            have hfull : child.isEmpty = false := by
              cases hempty : child.isEmpty with
              | false => rfl
              | true => simp [leafAt_of_isEmpty hchild hempty] at hvalue
            exact ⟨(member.1, child), hperm.mem_iff.mp (himage hfull), heq, hvalue⟩

end FSnapshotUtilities

namespace FNode

variable {isDecimalDigit : Char → Bool} {depth : ℕ} {node : FNode Value}
  {obj : List (String × Json)}

theorem digitChar_of_isDigit {c : Char} (h : c.isDigit = true) :
    c.toNat - 48 < 10 ∧ Nat.digitChar (c.toNat - 48) = c := by
  obtain ⟨hlow, hhigh⟩ : 48 ≤ c.toNat ∧ c.toNat ≤ 57 := by
    simpa [Char.isDigit, UInt32.le_iff_toNat_le] using h
  have hchar := Char.ofNat_toNat c
  refine ⟨by omega, ?_⟩
  conv_rhs => rw [← hchar]
  generalize c.toNat = code at hlow hhigh
  interval_cases code <;> rfl

/-- Digits with no zero in front are the decimal form of their number. -/
theorem toDigits_ofDigitChars {text : List Char} (hdigits : ∀ c ∈ text, c.isDigit = true)
    (hhead : text.head? ≠ some '0') (hne : text ≠ []) :
    0 < Nat.ofDigitChars 10 text 0 ∧ Nat.toDigits 10 (Nat.ofDigitChars 10 text 0) = text := by
  induction text using List.reverseRecOn with
  | nil => exact absurd rfl hne
  | append_singleton init c ih =>
      obtain ⟨hlt, hchar⟩ := digitChar_of_isDigit (hdigits c (by simp))
      rw [Nat.ofDigitChars_append, Nat.ofDigitChars_cons, Nat.ofDigitChars_nil]
      change 0 < 10 * _ + (c.toNat - 48) ∧ Nat.toDigits 10 (10 * _ + (c.toNat - 48)) = _
      cases init with
      | nil =>
          have hpos : c.toNat - 48 ≠ 0 := fun hzero => hhead (by rw [← hchar, hzero]; rfl)
          rw [Nat.ofDigitChars_nil, Nat.mul_zero, Nat.zero_add, Nat.toDigits_of_lt_base hlt, hchar]
          exact ⟨by omega, rfl⟩
      | cons first rest =>
          obtain ⟨hpos, hinit⟩ := ih (fun c hc => hdigits c (List.mem_append_left _ hc)) hhead
            (List.cons_ne_nil _ _)
          rw [← Nat.toDigits_append_toDigits (by decide) hpos hlt, hinit,
            Nat.toDigits_of_lt_base hlt, hchar]
          exact ⟨by omega, rfl⟩

/-- A key that is an index is spelled as the index is. -/
theorem eq_of_integerKey {key : String} {i : ℕ} (hspelled : Spelled isDecimalDigit key)
    (h : integerKey isDecimalDigit key = some i) : key = toString i := by
  rw [integerKey, Option.ite_none_left_eq_some, FUtilities.intForString,
    Option.ite_none_right_eq_some, List.all_eq_true] at h
  obtain ⟨hzero, hall, h⟩ := h
  have hdigits : ∀ c ∈ key.toList, c.isDigit = true := fun c hc => hspelled c hc (hall c hc)
  have htake : key.toList.takeWhile Char.isDigit = key.toList :=
    List.takeWhile_eq_self_iff.mpr hdigits
  simp only [FUtilities.scanInteger, htake, Option.ite_none_left_eq_some, Option.some.injEq,
    List.isEmpty_iff] at h
  obtain ⟨hne, rfl⟩ := h
  rw [Nat.toString_eq_ofList_toDigits]
  refine String.toList_injective ?_
  rw [String.toList_ofList]
  by_cases hhead : key.toList.head? = some '0'
  · have hlength : key.toList.length ≤ 1 := by
      rw [String.length_toList]
      exact Nat.le_of_not_lt fun hlong => hzero ⟨hhead, hlong⟩
    obtain ⟨c, hsingle⟩ := List.length_eq_one_iff.mp
      (le_antisymm hlength (List.length_pos_iff.mpr hne))
    rw [hsingle, List.head?_cons, Option.some.injEq] at hhead
    rw [hsingle, hhead]
    rfl
  · exact (toDigits_ofDigitChars hdigits hhead hne).2.symm

theorem le_maxIntegerKey {keys : List String} {start maxKey : ℕ}
    (h : maxIntegerKey isDecimalDigit start keys = some maxKey) :
    start ≤ maxKey ∧ ∀ key ∈ keys, ∃ i ≤ maxKey, integerKey isDecimalDigit key = some i := by
  induction keys generalizing start with
  | nil =>
      obtain rfl := Option.some.inj h
      exact ⟨le_refl _, List.forall_mem_nil _⟩
  | cons key keys ih =>
      rw [maxIntegerKey] at h
      cases hkey : integerKey isDecimalDigit key with
      | none => simp [hkey] at h
      | some keyAsInt =>
          simp only [hkey] at h
          obtain ⟨hle, hall⟩ := ih h
          have hboth : start ≤ maxKey ∧ keyAsInt ≤ maxKey := by
            split at hle <;> omega
          exact ⟨hboth.1, List.forall_mem_cons.mpr ⟨⟨keyAsInt, hboth.2, hkey⟩, hall⟩⟩

theorem members_range (count : ℕ) (item : ℕ → Json) :
    (Json.array ((List.range count).map item)).members =
      (List.range count).map fun i => (toString i, item i) := by
  refine List.ext_getElem (by simp [Json.members]) fun i hi hi' => ?_
  simp [Json.members]

theorem mem_of_lookup {key : String} {item : Json} (h : obj.lookup key = some item) :
    (key, item) ∈ obj := by
  induction obj with
  | nil => cases h
  | cons member rest ih =>
      rw [List.lookup_cons] at h
      split at h
      · next heq =>
        obtain rfl := Option.some.inj h
        rw [beq_iff_eq] at heq
        exact heq ▸ List.mem_cons_self
      · exact List.mem_cons_of_mem _ (ih h)

theorem lookup_of_mem (hnodup : (obj.map Prod.fst).Nodup) {member : String × Json}
    (h : member ∈ obj) : obj.lookup member.1 = some member.2 := by
  induction obj with
  | nil => cases h
  | cons first rest ih =>
      obtain ⟨hfirst, hrest⟩ := List.nodup_cons.mp hnodup
      rw [List.lookup_cons]
      rcases List.mem_cons.mp h with rfl | hmem
      · rw [beq_self_eq_true]
      · have hne : member.1 ≠ first.1 := fun heq =>
          hfirst (heq ▸ List.mem_map_of_mem hmem)
        rw [beq_false_of_ne hne]
        exact ih hrest hmem

/-- What can be read below is the same in the array and in the dictionary. -/
theorem mem_exportChildren (hspelled : ∀ member ∈ obj, Spelled isDecimalDigit member.1)
    (hnodup : (obj.map Prod.fst).Nodup) {read : String × Json → Prop}
    (hnull : ∀ key, ¬read (key, .null)) :
    (∃ member ∈ (exportChildren isDecimalDigit obj).members, read member) ↔
      ∃ member ∈ obj, read member := by
  rw [exportChildren]
  split
  · next hempty => rw [List.isEmpty_iff.mp hempty, Json.members]
  · split
    · rfl
    · next maxKey hmaxKey =>
      split
      · rw [members_range]
        constructor
        · rintro ⟨member, hmember, hread⟩
          obtain ⟨i, _, rfl⟩ := List.mem_map.mp hmember
          cases hlookup : obj.lookup (toString i) with
          | none => exact absurd (hlookup ▸ hread) (hnull _)
          | some item =>
              rw [hlookup] at hread
              exact ⟨(toString i, item), mem_of_lookup hlookup, hread⟩
        · rintro ⟨⟨key, item⟩, hmember, hread⟩
          obtain ⟨i, hle, hkey⟩ := (le_maxIntegerKey hmaxKey).2 key (List.mem_map_of_mem hmember)
          obtain rfl := eq_of_integerKey (hspelled _ hmember) hkey
          refine ⟨_, List.mem_map_of_mem (List.mem_range.mpr (Nat.lt_succ_of_le hle)), ?_⟩
          rw [lookup_of_mem hnodup hmember]
          exact hread
      · rfl

theorem spelled_toString (i : ℕ) : Spelled isDecimalDigit (toString i) :=
  fun _ hc _ => isDigit_of_mem_toString hc

theorem hasMetadataPrefix_of_isValidKey {key : String} (h : isValidKey key = true) :
    hasMetadataPrefix key = false := by
  rw [isValidKey, Bool.and_eq_true, List.all_eq_true] at h
  rw [hasMetadataPrefix, decide_eq_false_iff_not]
  intro hhead
  have hdot := h.2 '.' (List.mem_of_mem_head? hhead)
  simp [invalidKeyCharacters] at hdot

theorem nodup_of_sound {someChildren : FImmutableSortedDictionary String (FNode Value)}
    (h : FImmutableSortedDictionary.Sound compareKey someChildren) (read : FNode Value → Json) :
    ((someChildren.entries.map fun entry => (entry.1, read entry.2)).map Prod.fst).Nodup := by
  rw [List.map_map]
  refine List.pairwise_map.mpr (h.ascending.imp ?_)
  intro entry later hlt heq
  have hsame : entry.1 = later.1 := heq
  rw [hsame, show compareKey later.1 later.1 = .eq from Std.ReflCmp.compare_self] at hlt
  cases hlt

theorem spelled_of_fits {someChildren : FImmutableSortedDictionary String (FNode Value)}
    (h : Fits isDecimalDigit depth (.children someChildren)) (read : FNode Value → Json) :
    ∀ member ∈ someChildren.entries.map fun entry => (entry.1, read entry.2),
      Spelled isDecimalDigit member.1 := by
  intro member hmember
  obtain ⟨entry, hentry, rfl⟩ := List.mem_map.mp hmember
  cases h with
  | children _ hkeys _ => exact (hkeys entry hentry).2

theorem exportChildren_ne_value (value : Value) :
    exportChildren isDecimalDigit obj ≠ .value value := by
  rw [exportChildren]
  split
  · exact fun h => by cases h
  · split
    · exact fun h => by cases h
    · split <;> exact fun h => by cases h

/-- What is read of a node has the node's leaves. -/
theorem val_hasLeaf (h : Sound node) (hfits : Fits isDecimalDigit depth node) (place : List String)
    (value : Value) :
    (val isDecimalDigit node).HasLeaf value place ↔ leafAt place node = some value := by
  induction h generalizing depth place with
  | leaf found =>
      rw [val]
      cases place with
      | nil => simp [Json.HasLeaf]
      | cons front rest => simp [Json.HasLeaf, Json.members]
  | @children someChildren hsound hall hfull ih =>
      rw [val_children]
      cases place with
      | nil =>
          exact iff_of_false (exportChildren_ne_value value) fun h => by cases h
      | cons front rest =>
          rw [leafAt_cons_iff (.children hsound hall hfull), Json.HasLeaf,
            mem_exportChildren (spelled_of_fits hfits _) (nodup_of_sound hsound _)
              (fun key hread => Json.not_hasLeaf_null value rest hread.2)]
          cases hfits with
          | children _ _ hbelow =>
          constructor
          · rintro ⟨member, hmember, heq, hleaf⟩
            obtain ⟨entry, hentry, rfl⟩ := List.mem_map.mp hmember
            exact ⟨entry, hentry, heq, (ih entry hentry (hbelow entry hentry) rest).mp hleaf⟩
          · rintro ⟨entry, hentry, heq, hleaf⟩
            exact ⟨_, List.mem_map_of_mem hentry, heq,
              (ih entry hentry (hbelow entry hentry) rest).mpr hleaf⟩

theorem mem_of_mem_exportChildren {member : String × Json}
    (h : member ∈ (exportChildren isDecimalDigit obj).members) :
    member ∈ obj ∨ ∃ i : ℕ, member = (toString i, .null) := by
  rw [exportChildren] at h
  split at h
  · cases h
  · split at h
    · exact .inl h
    · split at h
      · rw [members_range] at h
        obtain ⟨i, _, rfl⟩ := List.mem_map.mp h
        cases hlookup : obj.lookup (toString i) with
        | none => exact .inr ⟨i, rfl⟩
        | some item => exact .inl (mem_of_lookup hlookup)
      · exact .inl h

theorem plain_null : Json.Plain isDecimalDigit .null :=
  .intro (List.forall_mem_nil _) (List.forall_mem_nil _)

/-- The keys of what is read are valid. -/
theorem val_keys (h : Fits isDecimalDigit depth node) :
    (val isDecimalDigit node).Plain isDecimalDigit ∧
      ∀ member ∈ (val isDecimalDigit node).members, isValidKey member.1 = true := by
  induction h with
  | leaf =>
      rw [val]
      exact ⟨.intro (List.forall_mem_nil _) (List.forall_mem_nil _), List.forall_mem_nil _⟩
  | @children depth someChildren hdepth hkeys hbelow ih =>
      rw [val_children]
      have hmember : ∀ member ∈ (exportChildren isDecimalDigit (someChildren.entries.map
          fun entry => (entry.1, val isDecimalDigit entry.2))).members,
          isValidKey member.1 = true ∧ Spelled isDecimalDigit member.1 ∧
            member.2.Plain isDecimalDigit := by
        intro member hmember
        rcases mem_of_mem_exportChildren hmember with hmem | ⟨i, rfl⟩
        · obtain ⟨entry, hentry, rfl⟩ := List.mem_map.mp hmem
          exact ⟨(hkeys entry hentry).1, (hkeys entry hentry).2, (ih entry hentry).1⟩
        · exact ⟨isValidKey_toString i, spelled_toString i, plain_null⟩
      refine ⟨.intro (fun member hmem => ?_) fun member hmem => (hmember member hmem).2.2,
        fun member hmem => (hmember member hmem).1⟩
      exact ⟨hasMetadataPrefix_of_isValidKey (hmember member hmem).1, (hmember member hmem).2.1⟩

end FNode

namespace FSnapshotUtilities

variable {fn : String} {depth : ℕ} {path : List String} {json : Json} {node : FNode Value}
  {children : List (String × FNode Value)} {isDecimalDigit : Char → Bool}

/-- Two indices are two keys. -/
theorem eq_of_compareKey_toString {i j : ℕ} (h : compareKey (toString i) (toString j) = .eq) :
    i = j := by
  have hhyphen (n : ℕ) : 45 ∉ units (toString n) := by
    intro hmem
    obtain ⟨c, hc, hunit⟩ := List.mem_flatMap.mp hmem
    obtain ⟨hlow, hhigh⟩ : 48 ≤ c.toNat ∧ c.toNat ≤ 57 := by
      simpa [Char.isDigit, UInt32.le_iff_toNat_le] using isDigit_of_mem_toString hc
    rw [Utf16.units, if_pos (by omega), List.mem_singleton] at hunit
    omega
  have hzeros {a b : List ℕ} (hzeros : FUtilities.TwoZeros a b) : 45 ∈ a := by
    obtain ⟨n, _, _, rfl, _⟩ := hzeros
    exact List.mem_cons_self
  rcases (FUtilities.compareKey_eq_iff _ _).mp h with heq | hfirst | hfirst
  · have hvalue := congrArg (fun text => Nat.ofDigitChars 10 text.toList 0) heq
    simpa only [Nat.toString_eq_ofList_toDigits, String.toList_ofList,
      Nat.ofDigitChars_ten_toDigits] using hvalue
  · exact absurd (hzeros hfirst) (hhyphen i)
  · exact absurd (hzeros hfirst) (hhyphen j)

theorem childrenNode_isOk
    (h : children.Pairwise fun child later => compareKey child.1 later.1 ≠ .eq) :
    ∃ node, childrenNode children = .ok node := by
  rw [childrenNode]
  split
  · exact ⟨_, rfl⟩
  · obtain ⟨entries, hperm, hascending⟩ := SortedList.exists_ascending h
    obtain ⟨someChildren, hsome, _⟩ :=
      FImmutableSortedDictionary.fromDictionary_eq hperm hascending
    exact ⟨.children someChildren, by rw [hsome]; rfl⟩

theorem dictionaryChildren_isOk {dval : List (String × Json)}
    (hkeys : ∀ member ∈ dval, isValidKey member.1 = true)
    (hbelow : ∀ member ∈ dval, ∃ node,
      nodeFrom fn (depth + 1) (path ++ [member.1]) member.2 = .ok node) :
    ∃ children, dictionaryChildren fn depth path dval = .ok children ∧
      (children.map Prod.fst).Sublist (dval.map Prod.fst) := by
  induction dval with
  | nil => exact ⟨[], rfl, .slnil⟩
  | cons member rest ih =>
      obtain ⟨hkey, hkeys⟩ := List.forall_mem_cons.mp hkeys
      obtain ⟨⟨childNode, hnode⟩, hbelow⟩ := List.forall_mem_cons.mp hbelow
      obtain ⟨children, hchildren, hsub⟩ := ih hkeys hbelow
      refine ⟨if childNode.isEmpty then children else (member.1, childNode) :: children, ?_, ?_⟩
      · rw [dictionaryChildren, validDictionaryKey, if_neg (by simp [hkey]),
          hasMetadataPrefix_of_isValidKey hkey, hnode, hchildren]
        rfl
      · split
        · exact hsub.cons _
        · exact hsub.cons_cons _

theorem arrayChildren_isOk {aval : List Json} {i : ℕ}
    (hbelow : ∀ item ∈ aval.zipIdx i, ∃ node,
      nodeFrom fn (depth + 1) (path ++ [toString item.2]) item.1 = .ok node) :
    ∃ children, arrayChildren fn depth path i aval = .ok children ∧
      (children.map Prod.fst).Sublist ((aval.zipIdx i).map fun item => toString item.2) := by
  induction aval generalizing i with
  | nil => exact ⟨[], rfl, .slnil⟩
  | cons item rest ih =>
      obtain ⟨⟨childNode, hnode⟩, hbelow⟩ := List.forall_mem_cons.mp hbelow
      obtain ⟨children, hchildren, hsub⟩ := ih hbelow
      refine ⟨if childNode.isEmpty then children else (toString i, childNode) :: children, ?_, ?_⟩
      · rw [arrayChildren, hnode, hchildren]
        rfl
      · split
        · exact hsub.cons _
        · exact hsub.cons_cons _

theorem nodeFrom_isOk (hdepth : depth ≤ maxObjectDepth) (hvalue : ∀ value, json ≠ .value value)
    (hkeys : ∀ member ∈ json.members, isValidKey member.1 = true)
    (hbelow : ∀ member ∈ json.members, ∃ node,
      nodeFrom fn (depth + 1) (path ++ [member.1]) member.2 = .ok node)
    (hdistinct : (json.members.map Prod.fst).Pairwise fun key later =>
      compareKey key later ≠ .eq) : ∃ node, nodeFrom fn depth path json = .ok node := by
  have hvalid : validDepth fn path depth = .ok () := validDepth_eq_ok.mpr hdepth
  have hnode {children : List (String × FNode Value)}
      (hsub : (children.map Prod.fst).Sublist (json.members.map Prod.fst)) :
      ∃ node, childrenNode children = .ok node :=
    childrenNode_isOk (List.pairwise_map.mp (hdistinct.sublist hsub))
  cases json with
  | value value => exact absurd rfl (hvalue value)
  | null =>
      rw [nodeFrom, hvalid]
      exact ⟨emptyNode, rfl⟩
  | dictionary dval =>
      rw [Json.members] at hkeys hbelow
      obtain ⟨children, hchildren, hsub⟩ := dictionaryChildren_isOk hkeys hbelow
      obtain ⟨node, hnode⟩ := hnode hsub
      rw [nodeFrom, hvalid, hchildren]
      exact ⟨node, hnode⟩
  | array aval =>
      obtain ⟨children, hchildren, hsub⟩ := @arrayChildren_isOk fn depth path aval 0
        fun item hitem => hbelow _ (List.mem_map_of_mem hitem)
      have hkeys : (Json.array aval).members.map Prod.fst =
          aval.zipIdx.map fun item => toString item.2 := by
        rw [Json.members, List.map_map]
        rfl
      obtain ⟨node, hnode⟩ := hnode (hkeys ▸ hsub)
      rw [nodeFrom, hvalid, hchildren]
      exact ⟨node, hnode⟩

theorem distinct_exportChildren {obj : List (String × Json)}
    (h : (obj.map Prod.fst).Pairwise fun key later => compareKey key later ≠ .eq) :
    ((exportChildren isDecimalDigit obj).members.map Prod.fst).Pairwise fun key later =>
      compareKey key later ≠ .eq := by
  rw [exportChildren]
  split
  · exact .nil
  · split
    · exact h
    · split
      · rw [members_range, List.map_map, List.pairwise_map]
        refine List.nodup_range.imp fun hne heq => hne ?_
        exact eq_of_compareKey_toString heq
      · exact h

/-- What is read can be stored. -/
theorem nodeFrom_val (h : Sound node) (hfits : Fits isDecimalDigit depth node) (fn : String)
    (path : List String) : ∃ again, nodeFrom fn depth path (val isDecimalDigit node) = .ok again := by
  induction h generalizing depth path with
  | leaf value =>
      cases hfits with
      | leaf hdepth hvalid =>
          rw [val, nodeFrom, validDepth_eq_ok.mpr hdepth, hvalid]
          exact ⟨.leaf value, rfl⟩
  | @children someChildren hsound hall hfull ih =>
      have hkeys := (val_keys hfits).2
      cases hfits with
      | children hdepth hspelled hbelow =>
      have hdeeper : someChildren.entries = [] ∨ depth + 1 ≤ maxObjectDepth := by
        cases hentries : someChildren.entries with
        | nil => exact .inl rfl
        | cons entry rest =>
            exact .inr (hbelow entry (hentries ▸ List.mem_cons_self)).le
      rw [val_children] at hkeys ⊢
      refine nodeFrom_isOk hdepth exportChildren_ne_value hkeys ?_ (distinct_exportChildren ?_)
      · intro member hmember
        rcases mem_of_mem_exportChildren hmember with hmem | ⟨i, rfl⟩
        · obtain ⟨entry, hentry, rfl⟩ := List.mem_map.mp hmem
          exact ih entry hentry (hbelow entry hentry) _
        · have hle : depth + 1 ≤ maxObjectDepth := by
            rcases hdeeper with hnil | hle
            · rw [hnil] at hmember
              cases hmember
            · exact hle
          rw [nodeFrom, validDepth_eq_ok.mpr hle]
          exact ⟨emptyNode, rfl⟩
      · rw [List.map_map]
        refine List.pairwise_map.mpr (hsound.ascending.imp fun hlt heq => ?_)
        rw [Function.comp_apply, Function.comp_apply, hlt] at heq
        cases heq

/-- What is read of a stored value has its leaves, and stored again it gives a
node with the same ones. -/
theorem stored_val (hplain : json.Plain isDecimalDigit) (h : nodeFrom fn 0 [] json = .ok node) :
    (∀ place value, (val isDecimalDigit node).HasLeaf value place ↔ json.HasLeaf value place) ∧
      ∃ again, nodeFrom fn 0 [] (val isDecimalDigit node) = .ok again ∧
        ∀ place, leafAt place again = leafAt place node := by
  obtain ⟨hsound, hfits, hleaves⟩ := nodeFrom_spec hplain h
  have hval := val_hasLeaf hsound hfits
  obtain ⟨again, hagain⟩ := nodeFrom_val hsound hfits fn []
  refine ⟨fun place value => (hval place value).trans (hleaves place value), again, hagain,
    fun place => ?_⟩
  have hsame := (nodeFrom_spec (val_keys hfits).1 hagain).2.2 place
  exact Option.ext fun value => (hsame value).trans (hval place value)

/-- A lamp with bids under the keys 0 and 2, which are read as an array. -/
def lampJson : Json :=
  .dictionary [("productname", .value (.string "Lamp")),
    ("bids", .dictionary [("2", .value (.number 7)), ("0", .value (.number 5))]), ("note", .null)]

theorem stored_val_of_lamp :
    ∃ node, nodeFrom "setValue:" 0 [] lampJson = .ok node ∧
      (∀ place value, (val Char.isDigit node).HasLeaf value place ↔ lampJson.HasLeaf value place) ∧
      ∃ again, nodeFrom "setValue:" 0 [] (val Char.isDigit node) = .ok again ∧
        ∀ place, leafAt place again = leafAt place node := by
  have hplain (json : Json) (hkeys : ∀ member ∈ json.members, hasMetadataPrefix member.1 = false)
      (hbelow : ∀ member ∈ json.members, member.2.Plain Char.isDigit) : json.Plain Char.isDigit :=
    .intro (fun member hmember => ⟨hkeys member hmember, fun _ _ hdigit => hdigit⟩) hbelow
  have hlamp : lampJson.Plain Char.isDigit := by
    refine hplain _ (by decide) (List.forall_mem_cons.mpr ⟨?_, List.forall_mem_cons.mpr ⟨?_,
      List.forall_mem_singleton.mpr plain_null⟩⟩)
    · exact hplain _ (List.forall_mem_nil _) (List.forall_mem_nil _)
    · refine hplain _ (by decide) (List.forall_mem_cons.mpr ⟨?_, List.forall_mem_singleton.mpr ?_⟩)
      · exact hplain _ (List.forall_mem_nil _) (List.forall_mem_nil _)
      · exact hplain _ (List.forall_mem_nil _) (List.forall_mem_nil _)
  obtain ⟨node, hnode⟩ : ∃ node, nodeFrom "setValue:" 0 [] lampJson = .ok node := by
    refine nodeFrom_isOk (Nat.zero_le _) (fun _ h => by cases h) (by decide) ?_ (by decide)
    refine List.forall_mem_cons.mpr ⟨⟨.leaf (.string "Lamp"), rfl⟩, List.forall_mem_cons.mpr
      ⟨nodeFrom_isOk (by decide) (fun _ h => by cases h) (by decide) ?_ (by decide),
        List.forall_mem_singleton.mpr ⟨emptyNode, rfl⟩⟩⟩
    exact List.forall_mem_cons.mpr ⟨⟨.leaf (.number 7), rfl⟩,
      List.forall_mem_singleton.mpr ⟨.leaf (.number 5), rfl⟩⟩
  exact ⟨node, hnode, stored_val hlamp hnode⟩

end FSnapshotUtilities

end FirebaseDatabase
