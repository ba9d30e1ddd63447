import Auctioneer.FirebaseDatabase.Keys
import Auctioneer.FirebaseDatabase.Validation
import Mathlib.Data.List.Pairwise

/-!
The keys that `childByAutoId` makes: 8 characters of the time and 12 of chance,
which count up while the time stands still.
-/

namespace FirebaseDatabase

namespace FNextPushId

def PUSH_CHARS : List Char :=
  "-0123456789ABCDEFGHIJKLMNOPQRSTUVWXYZ_abcdefghijklmnopqrstuvwxyz".toList

/-- `[PUSH_CHARS characterAtIndex:index]` -/
def pushChar (index : ℕ) : Char := PUSH_CHARS.getD index '-'

/-- The static variables of `get`. -/
structure State where
  lastPushTime : ℕ
  lastRandChars : List ℕ

def State.initial : State := ⟨0, List.replicate 12 0⟩

/-- The digits of the time in base 64, the last `count` of them. -/
def timeStampChars : ℕ → ℕ → List ℕ
  | 0, _ => []
  | count + 1, now => timeStampChars count (now / 64) ++ [now % 64]

/-- The loop over `lastRandChars` from its end. Where all are 63 all become 0, and
what is then counted up lies before the array: no variable of the model. -/
def increment : List ℕ → List ℕ
  | [] => []
  | c :: rest => if c = 63 then 0 :: increment rest else (c + 1) :: rest

/-- `random` is what the 12 calls of `arc4random` return, `now` the milliseconds. -/
def get (state : State) (now : ℕ) (random : Fin 12 → ℕ) : String × State :=
  let duplicateTime := now = state.lastPushTime
  let lastRandChars :=
    if duplicateTime then (increment state.lastRandChars.reverse).reverse
    else List.ofFn fun i => random i % 64
  (String.ofList ((timeStampChars 8 now ++ lastRandChars).map pushChar),
    { lastPushTime := now, lastRandChars })

/-- The keys of several calls in turn. -/
def run (state : State) : List (ℕ × (Fin 12 → ℕ)) → List String
  | [] => []
  | call :: calls =>
      (get state call.1 call.2).1 :: run (get state call.1 call.2).2 calls

/-- A call in the same millisecond has nothing left to count up. -/
def State.Full (state : State) (now : ℕ) : Prop :=
  now = state.lastPushTime ∧ ∀ c ∈ state.lastRandChars, c = 63

instance (state : State) (now : ℕ) : Decidable (state.Full now) :=
  inferInstanceAs (Decidable (_ ∧ _))

/-- The state that each of several calls in turn finds, and its time. -/
def found (state : State) : List (ℕ × (Fin 12 → ℕ)) → List (State × ℕ)
  | [] => []
  | call :: calls => (state, call.1) :: found (get state call.1 call.2).2 calls

section Order

theorem compare_append {a b c d : List ℕ} (h : a.length = b.length) :
    compare (a ++ c) (b ++ d) = (compare a b).then (compare c d) := by
  induction a generalizing b with
  | nil =>
      obtain rfl := List.length_eq_zero_iff.mp h.symm
      rfl
  | cons x a ih =>
      cases b with
      | nil => cases h
      | cons y b =>
          rw [List.cons_append, List.cons_append, List.compare_cons_cons, List.compare_cons_cons,
            ih (Nat.succ.inj h), Ordering.then_assoc]

theorem length_timeStampChars (count now : ℕ) : (timeStampChars count now).length = count := by
  induction count generalizing now with
  | zero => rfl
  | succ count ih => rw [timeStampChars, List.length_append, ih, List.length_singleton]

theorem timeStampChars_lt (count now : ℕ) : ∀ d ∈ timeStampChars count now, d < 64 := by
  induction count generalizing now with
  | zero => nofun
  | succ count ih =>
      intro d hd
      rcases List.mem_append.mp hd with hmem | hmem
      · exact ih _ d hmem
      · obtain rfl := List.mem_singleton.mp hmem
        exact Nat.mod_lt _ (by decide)

/-- The digits of a later time are above, unless it has too many. -/
theorem compare_timeStampChars {count now now' : ℕ} (h : now < now') (hrange : now' < 64 ^ count) :
    compare (timeStampChars count now) (timeStampChars count now') = .lt := by
  induction count generalizing now now' with
  | zero => omega
  | succ count ih =>
      rw [timeStampChars, timeStampChars, compare_append (by simp [length_timeStampChars])]
      have hhigh : now' / 64 < 64 ^ count := by
        rw [Nat.div_lt_iff_lt_mul (by decide), ← pow_succ]
        exact hrange
      rcases Nat.lt_or_eq_of_le (Nat.div_le_div_right h.le : now / 64 ≤ now' / 64) with hlt | heq
      · rw [ih hlt hhigh]
        rfl
      · have hlow : now % 64 < now' % 64 := by omega
        rw [heq, Std.ReflOrd.compare_self, List.compare_cons_cons, Nat.compare_eq_lt.mpr hlow]
        rfl

/-- Counted up, the digits are above, unless all go back to 0. -/
theorem increment_spec (chars : List ℕ) :
    (increment chars).length = chars.length ∧
      ((∀ d ∈ chars, d < 64) → ∀ d ∈ increment chars, d < 64) ∧
      (compare chars.reverse (increment chars).reverse = .lt ↔ ¬∀ c ∈ chars, c = 63) := by
  induction chars with
  | nil => simp [increment]
  | cons c rest ih =>
      obtain ⟨hlength, hdigits, hlt⟩ := ih
      rw [increment]
      split
      · next heq =>
        refine ⟨by simp [hlength], fun hall => ?_, ?_⟩
        · exact List.forall_mem_cons.mpr
            ⟨by decide, hdigits (List.forall_mem_cons.mp hall).2⟩
        · rw [List.reverse_cons, List.reverse_cons, compare_append (by simp [hlength]),
            List.forall_mem_cons, and_iff_right heq, ← hlt, heq]
          cases compare rest.reverse (increment rest).reverse <;> decide
      · next hne =>
        refine ⟨rfl, fun hall => ?_, ?_⟩
        · obtain ⟨hc, hrest⟩ := List.forall_mem_cons.mp hall
          exact List.forall_mem_cons.mpr ⟨by omega, hrest⟩
        · rw [List.reverse_cons, List.reverse_cons, compare_append rfl, Std.ReflOrd.compare_self,
            List.compare_cons_cons, Nat.compare_eq_lt.mpr (Nat.lt_succ_self c)]
          exact iff_of_true rfl fun hall => hne (List.forall_mem_cons.mp hall).1

end Order

section Texts

theorem pushChar_mem (index : ℕ) : pushChar index ∈ PUSH_CHARS := by
  rw [pushChar, List.getD_eq_getElem?_getD]
  cases h : PUSH_CHARS[index]? with
  | none => decide
  | some c => exact List.mem_of_getElem? h

theorem pushChars_ascending : PUSH_CHARS.Pairwise fun a b => a.toNat < b.toNat := by decide

theorem compare_pushChar {d d' : ℕ} (h : d < 64) (h' : d' < 64) :
    compare (pushChar d).toNat (pushChar d').toNat = compare d d' := by
  have hlength : PUSH_CHARS.length = 64 := by decide
  have hmono {i j : ℕ} (hlt : i < j) (hj : j < 64) : (pushChar i).toNat < (pushChar j).toNat := by
    have hi : i < PUSH_CHARS.length := by omega
    have hj : j < PUSH_CHARS.length := by omega
    rw [pushChar, pushChar, List.getD_eq_getElem?_getD, List.getD_eq_getElem?_getD,
      List.getElem?_eq_getElem hi, List.getElem?_eq_getElem hj]
    exact List.pairwise_iff_getElem.mp pushChars_ascending i j hi hj hlt
  rcases lt_trichotomy d d' with hlt | rfl | hlt
  · rw [Nat.compare_eq_lt.mpr hlt, Nat.compare_eq_lt.mpr (hmono hlt h')]
  · rw [Std.ReflOrd.compare_self, Std.ReflOrd.compare_self]
  · rw [Nat.compare_eq_gt.mpr hlt, Nat.compare_eq_gt.mpr (hmono hlt h)]

/-- The text of the digits. -/
def textOf (digits : List ℕ) : String := String.ofList (digits.map pushChar)

theorem units_textOf (digits : List ℕ) :
    units (textOf digits) = digits.map fun d => (pushChar d).toNat := by
  have hbasic : PUSH_CHARS.all (fun c => c.toNat < 0x10000) = true := by decide
  rw [units, textOf, String.toList_ofList]
  induction digits with
  | nil => rfl
  | cons d digits ih =>
      rw [List.map_cons, List.map_cons, Utf16.encode_cons, ih, Utf16.units,
        if_pos (of_decide_eq_true (List.all_eq_true.mp hbasic _ (pushChar_mem d)))]
      rfl

theorem compare_map_pushChar {a b : List ℕ} (ha : ∀ d ∈ a, d < 64) (hb : ∀ d ∈ b, d < 64) :
    compare (a.map fun d => (pushChar d).toNat) (b.map fun d => (pushChar d).toNat) =
      compare a b := by
  induction a generalizing b with
  | nil => cases b <;> rfl
  | cons x a ih =>
      cases b with
      | nil => rfl
      | cons y b =>
          obtain ⟨hx, ha⟩ := List.forall_mem_cons.mp ha
          obtain ⟨hy, hb⟩ := List.forall_mem_cons.mp hb
          rw [List.map_cons, List.map_cons, List.compare_cons_cons, List.compare_cons_cons,
            compare_pushChar hx hy, ih ha hb]

/-- A text of 20 characters is no integer, and is in the order of its digits. -/
theorem compareKey_textOf {a b : List ℕ} (ha : a.length = 20 ∧ ∀ d ∈ a, d < 64)
    (hb : b.length = 20 ∧ ∀ d ∈ b, d < 64) :
    FUtilities.compareKey (textOf a) (textOf b) = compare a b := by
  have hlong {digits : List ℕ} (h : digits.length = 20) :
      FUtilities.tryParseStringToInt (units (textOf digits)) = none := by
    simp [FUtilities.tryParseStringToInt, units_textOf, h]
  rw [FUtilities.compareKey, hlong ha.1, hlong hb.1, units_textOf, units_textOf]
  exact compare_map_pushChar ha.2 hb.2

theorem isValidKey_textOf {digits : List ℕ} (h : digits.length = 20) :
    (textOf digits).length = 20 ∧ FValidation.isValidKey (textOf digits) = true := by
  have hallowed : PUSH_CHARS.all (fun c => !FValidation.invalidKeyCharacters.contains c) = true := by
    decide
  have hlength : (textOf digits).length = 20 := by
    rw [textOf, String.length_ofList, List.length_map, h]
  refine ⟨hlength, ?_⟩
  rw [FValidation.isValidKey, Bool.and_eq_true]
  constructor
  · cases hempty : (textOf digits).isEmpty with
    | true => simp [String.isEmpty_iff.mp hempty] at hlength
    | false => rfl
  · rw [textOf, String.toList_ofList, List.all_map, List.all_eq_true]
    intro d hd
    exact List.all_eq_true.mp hallowed _ (pushChar_mem d)

end Texts

section Runs

/-- The digits of the key that leaves this state. -/
def State.digits (state : State) : List ℕ :=
  timeStampChars 8 state.lastPushTime ++ state.lastRandChars

structure State.Valid (state : State) : Prop where
  length : state.lastRandChars.length = 12
  digits : ∀ d ∈ state.lastRandChars, d < 64

theorem State.valid_initial : State.initial.Valid where
  length := rfl
  digits := by decide

theorem State.Valid.spells {state : State} (h : state.Valid) :
    state.digits.length = 20 ∧ ∀ d ∈ state.digits, d < 64 := by
  refine ⟨?_, fun d hd => ?_⟩
  · rw [State.digits, List.length_append, length_timeStampChars, h.length]
  · exact (List.mem_append.mp hd).elim (timeStampChars_lt _ _ d) (h.digits d)

theorem get_eq {state : State} (hstate : state.Valid) (now : ℕ) (random : Fin 12 → ℕ) :
    (get state now random).1 = textOf (get state now random).2.digits ∧
      (get state now random).2.lastPushTime = now ∧ (get state now random).2.Valid := by
  refine ⟨rfl, rfl, ?_⟩
  obtain ⟨hlength, hdigits, -⟩ := increment_spec state.lastRandChars.reverse
  rw [get]
  by_cases htime : now = state.lastPushTime
  · rw [if_pos htime]
    refine ⟨by simp [hlength, hstate.length], fun d hd => ?_⟩
    exact hdigits (fun c hc => hstate.digits c (List.mem_reverse.mp hc)) d (List.mem_reverse.mp hd)
  · rw [if_neg htime]
    refine ⟨List.length_ofFn, fun d hd => ?_⟩
    obtain ⟨i, rfl⟩ := List.mem_ofFn.mp hd
    exact Nat.mod_lt _ (by decide)

/-- A key is above the one before it exactly if something was left to count up. -/
theorem get_ascends_iff {state : State} {now : ℕ} (hclock : state.lastPushTime ≤ now)
    (hrange : now < 64 ^ 8) (random : Fin 12 → ℕ) :
    compare state.digits (get state now random).2.digits = .lt ↔ ¬state.Full now := by
  rw [State.digits, State.digits, compare_append (by simp [length_timeStampChars])]
  change (compare _ (timeStampChars 8 now)).then _ = .lt ↔ _
  rcases Nat.lt_or_eq_of_le hclock with hlt | heq
  · rw [compare_timeStampChars hlt hrange]
    exact iff_of_true rfl fun hfull => hlt.ne hfull.1.symm
  · have hlt := (increment_spec state.lastRandChars.reverse).2.2
    rw [List.reverse_reverse] at hlt
    rw [heq, Std.ReflOrd.compare_self, get, if_pos heq.symm, State.Full, and_iff_right heq.symm]
    simpa [Ordering.then] using hlt

/-- The digits behind every key of a run: the time of its call in front, and in
ascending order from those of the state exactly if no call finds a full state. -/
theorem run_digits {state : State} {calls : List (ℕ × (Fin 12 → ℕ))} (hstate : state.Valid)
    (hclock : (state.lastPushTime :: calls.map (·.1)).Pairwise (· ≤ ·))
    (hrange : ∀ call ∈ calls, call.1 < 64 ^ 8) :
    ∃ states : List State, run state calls = states.map (fun state => textOf state.digits) ∧
      states.map State.lastPushTime = calls.map (·.1) ∧ (∀ state ∈ states, state.Valid) ∧
      (∀ next ∈ states.head?, compare state.digits next.digits = .lt ↔
        ¬state.Full next.lastPushTime) ∧
      ((state :: states).Pairwise (fun a b => compare a.digits b.digits = .lt) ↔
        ∀ call ∈ found state calls, ¬call.1.Full call.2) := by
  induction calls generalizing state with
  | nil => exact ⟨[], rfl, rfl, nofun, nofun, by simp [found]⟩
  | cons call calls ih =>
      obtain ⟨hid, htime, hnext⟩ := get_eq hstate call.1 call.2
      rw [List.map_cons, List.pairwise_cons] at hclock
      obtain ⟨hall, hclock⟩ := hclock
      have hlt := get_ascends_iff (hall _ List.mem_cons_self) (hrange _ List.mem_cons_self) call.2
      obtain ⟨states, hrun, htimes, hvalid, -, hpairwise⟩ := ih hnext (htime ▸ hclock)
        (fun call hcall => hrange call (List.mem_cons_of_mem _ hcall))
      refine ⟨(get state call.1 call.2).2 :: states, ?_, ?_,
        List.forall_mem_cons.mpr ⟨hnext, hvalid⟩, ?_, ?_⟩
      · rw [run, hrun, hid, List.map_cons]
      · rw [List.map_cons, List.map_cons, htime, htimes]
      · rintro _ ⟨⟩
        rwa [htime]
      · rw [found, List.forall_mem_cons, ← hpairwise, ← hlt, List.pairwise_cons,
          List.forall_mem_cons]
        refine and_congr_left fun hlater => and_iff_left_of_imp fun hfirst later hmem => ?_
        exact Std.TransCmp.lt_trans hfirst ((List.pairwise_cons.mp hlater).1 later hmem)

/-- The keys that one device makes ascend exactly if no call finds a full state,
and of two devices the key of the earlier millisecond is the smaller one. -/
theorem run_ordered {calls calls' : List (ℕ × (Fin 12 → ℕ))}
    (hclock : (calls.map (·.1)).Pairwise (· ≤ ·)) (hrange : ∀ call ∈ calls, call.1 < 64 ^ 8)
    (hclock' : (calls'.map (·.1)).Pairwise (· ≤ ·)) (hrange' : ∀ call ∈ calls', call.1 < 64 ^ 8) :
    ((run .initial calls).Pairwise (fun a b => FUtilities.compareKey a b = .lt) ↔
        ∀ call ∈ found .initial calls, ¬call.1.Full call.2) ∧
      (run .initial calls).length = calls.length ∧
      (∀ id ∈ run .initial calls, id.length = 20 ∧ FValidation.isValidKey id = true) ∧
      ∀ made ∈ (calls.map (·.1)).zip (run .initial calls),
        ∀ made' ∈ (calls'.map (·.1)).zip (run .initial calls'),
          made.1 < made'.1 → FUtilities.compareKey made.2 made'.2 = .lt := by
  have hstart {times : List ℕ} (h : times.Pairwise (· ≤ ·)) :
      (State.initial.lastPushTime :: times).Pairwise (· ≤ ·) :=
    List.pairwise_cons.mpr ⟨fun time _ => Nat.zero_le time, h⟩
  obtain ⟨states, hrun, htimes, hvalid, hfirst, hascends⟩ :=
    run_digits State.valid_initial (hstart hclock) hrange
  obtain ⟨states', hrun', htimes', hvalid', -, -⟩ :=
    run_digits State.valid_initial (hstart hclock') hrange'
  have hspells {state state' : State} (h : state.Valid) (h' : state'.Valid) :=
    compareKey_textOf h.spells h'.spells
  rw [hrun, hrun']
  refine ⟨?_, ?_, ?_, ?_⟩
  · rw [List.pairwise_map, ← hascends, List.pairwise_cons,
      List.Pairwise.iff_of_mem fun ha hb => by rw [hspells (hvalid _ ha) (hvalid _ hb)]]
    refine iff_and_self.mpr fun hpairwise => ?_
    -- The characters are all 0 at first, so the first call finds something to count up.
    cases states with
    | nil => nofun
    | cons next states =>
        have hnext : compare State.initial.digits next.digits = .lt :=
          (hfirst next rfl).mpr fun hfull => absurd (hfull.2 0 (by decide)) (by decide)
        refine List.forall_mem_cons.mpr ⟨hnext, fun later hlater => ?_⟩
        exact Std.TransCmp.lt_trans hnext ((List.pairwise_cons.mp hpairwise).1 later hlater)
  · rw [List.length_map, ← List.length_map State.lastPushTime, htimes, List.length_map]
  · intro id hid
    obtain ⟨state, hstate, rfl⟩ := List.mem_map.mp hid
    exact isValidKey_textOf (hvalid state hstate).spells.1
  · intro made hmade made' hmade' hlt
    rw [← htimes, List.zip_map', List.mem_map] at hmade
    rw [← htimes', List.zip_map', List.mem_map] at hmade'
    obtain ⟨a, ha, rfl⟩ := hmade
    obtain ⟨b, hb, rfl⟩ := hmade'
    have hbound : b.lastPushTime < 64 ^ 8 := by
      obtain ⟨call, hcall, htime⟩ :=
        List.mem_map.mp (htimes' ▸ List.mem_map_of_mem hb : b.lastPushTime ∈ calls'.map (·.1))
      exact htime ▸ hrange' call hcall
    rw [hspells (hvalid a ha) (hvalid' b hb), State.digits, State.digits,
      compare_append (by simp [length_timeStampChars]), compare_timeStampChars hlt hbound]
    rfl

/-- Two keys of one millisecond, and one of another device in the next. -/
theorem run_ordered_of_three :
    FUtilities.compareKey "-NjEtLV-29GNUahov18F" "-NjEtLV-29GNUahov18G" = .lt ∧
      FUtilities.compareKey "-NjEtLV-29GNUahov18G" "-NjEtLV0------------" = .lt := by
  have hrun : run .initial [(1700000000000, fun i => 7 * i + 3), (1700000000000, fun _ => 0)] =
      ["-NjEtLV-29GNUahov18F", "-NjEtLV-29GNUahov18G"] := by decide +kernel
  have hrun' : run .initial [(1700000000001, fun _ => 0)] = ["-NjEtLV0------------"] := by
    decide +kernel
  obtain ⟨hascends, -, -, hdevices⟩ := @run_ordered
    [(1700000000000, fun i => 7 * i + 3), (1700000000000, fun _ => 0)]
    [(1700000000001, fun _ => 0)] (by decide) (by decide) (by decide) (by decide)
  rw [hrun] at hascends hdevices
  rw [hrun'] at hdevices
  exact ⟨(List.pairwise_cons.mp (hascends.mpr (by decide +kernel))).1 _ List.mem_cons_self,
    hdevices _ (List.mem_cons_of_mem _ List.mem_cons_self) _ List.mem_cons_self (by decide)⟩

/-- Where the chance is used up, the second key is the smaller one. -/
example : run .initial [(1700000000000, fun _ => 63), (1700000000000, fun _ => 0)] =
    ["-NjEtLV-zzzzzzzzzzzz", "-NjEtLV-------------"] := by decide +kernel

end Runs

end FNextPushId

end FirebaseDatabase
