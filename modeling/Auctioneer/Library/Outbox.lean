import Mathlib.Data.List.Basic
import Mathlib.Data.List.Chain
import Mathlib.Order.Basic

/-!
A shared store that clients write to over a network. Writes of one client
arrive in the order it issued them; nothing orders the writes of different
clients, and any write may be delayed for any time.
-/

namespace Outbox

variable {C W D : Type*}

/-- `wire` holds the writes that have been issued and not yet applied, oldest
first. `past` and `issued` are history: the store's earlier states and every
write ever issued. -/
structure Net (C W D : Type*) where
  db : D
  past : List D
  wire : List (C × W)
  issued : List W

namespace Net

variable (net net' : Net C W D) (c : C)

def start (db : D) : Net C W D := ⟨db, [], [], []⟩

/-- Every state the store has been in, oldest first. -/
def states : List D := net.past ++ [net.db]

def issue (writes : List W) : Net C W D :=
  { net with
    wire := net.wire ++ writes.map (c, ·)
    issued := net.issued ++ writes }

/-- The oldest write of one client reaches the store. -/
def deliver [DecidableEq C] (apply : W → D → D) : Option (Net C W D) :=
  (net.wire.find? (·.1 = c)).map fun sent =>
    { net with
      db := apply sent.2 net.db
      past := net.past ++ [net.db]
      wire := net.wire.eraseP (·.1 = c) }

/-- The writes of one client still on their way, oldest first. -/
def outbox [DecidableEq C] : List W :=
  (net.wire.filter (·.1 = c)).map (·.2)

@[simp] theorem start_db (db : D) : (start db : Net C W D).db = db := rfl
@[simp] theorem start_past (db : D) : (start db : Net C W D).past = [] := rfl
@[simp] theorem start_wire (db : D) : (start db : Net C W D).wire = [] := rfl
@[simp] theorem start_issued (db : D) : (start db : Net C W D).issued = [] := rfl
@[simp] theorem start_states (db : D) : (start db : Net C W D).states = [db] := rfl

@[simp] theorem issue_db (writes : List W) : (net.issue c writes).db = net.db := rfl
@[simp] theorem issue_past (writes : List W) :
    (net.issue c writes).past = net.past := rfl
@[simp] theorem issue_wire (writes : List W) :
    (net.issue c writes).wire = net.wire ++ writes.map (c, ·) := rfl
@[simp] theorem issue_issued (writes : List W) :
    (net.issue c writes).issued = net.issued ++ writes := rfl
@[simp] theorem issue_states (writes : List W) :
    (net.issue c writes).states = net.states := rfl

theorem db_mem_states : net.db ∈ net.states := by simp [states]

/-- The last state is the present one. -/
theorem states_last {n : ℕ} (h : n + 1 = net.states.length) : net.states[n]? = some net.db := by
  obtain rfl : n = net.past.length := by simpa [states] using h
  simp [states]

@[simp] theorem start_outbox [DecidableEq C] (db : D) :
    (start db : Net C W D).outbox c = [] := rfl

theorem outbox_issue_self [DecidableEq C] (writes : List W) :
    (net.issue c writes).outbox c = net.outbox c ++ writes := by
  simp [outbox, List.filter_append, List.filter_map, Function.comp_def]

theorem outbox_issue_ne [DecidableEq C] {other : C} (hne : other ≠ c)
    (writes : List W) :
    (net.issue c writes).outbox other = net.outbox other := by
  simp [outbox, List.filter_append, List.filter_map, Function.comp_def, Ne.symm hne]

section Deliver

variable [DecidableEq C] {apply : W → D → D} {net net' c}

/-- All that a delivery does: the oldest write of the client leaves the wire,
the store applies it, and the earlier state becomes history. -/
theorem deliver_cases (h : net.deliver c apply = some net') :
    ∃ before write after,
      net.wire = before ++ (c, write) :: after ∧
      (∀ sent ∈ before, sent.1 ≠ c) ∧
      net' = { net with
        db := apply write net.db
        past := net.past ++ [net.db]
        wire := before ++ after } := by
  simp only [deliver, Option.map_eq_some_iff] at h
  obtain ⟨⟨owner, write⟩, hfind, rfl⟩ := h
  obtain ⟨howner, before, after, hwire, hbefore⟩ :=
    List.find?_eq_some_iff_append.mp hfind
  have howner : owner = c := by simpa using howner
  subst howner
  have hbefore : ∀ sent ∈ before, sent.1 ≠ owner := by
    simpa using hbefore
  refine ⟨before, write, after, hwire, hbefore, ?_⟩
  have herase : net.wire.eraseP (·.1 = owner) = before ++ after := by
    rw [hwire, List.eraseP_append_right _ (by simpa using hbefore)]
    simp
  rw [herase]

theorem deliver_states (h : net.deliver c apply = some net') :
    net'.states = net.states ++ [net'.db] := by
  obtain ⟨_, _, _, _, _, rfl⟩ := deliver_cases h
  simp [states]

theorem deliver_issued (h : net.deliver c apply = some net') :
    net'.issued = net.issued := by
  obtain ⟨_, _, _, _, _, rfl⟩ := deliver_cases h
  rfl

theorem deliver_wire_sublist (h : net.deliver c apply = some net') :
    net'.wire.Sublist net.wire := by
  obtain ⟨before, write, after, hwire, _, rfl⟩ := deliver_cases h
  rw [hwire]
  exact (List.Sublist.refl before).append (List.sublist_cons_self _ _)

/-- Only the delivered write leaves the wire. -/
theorem mem_wire_of_deliver (h : net.deliver c apply = some net') {sent : C × W}
    (hsent : sent ∈ net.wire) :
    sent ∈ net'.wire ∨ sent.1 = c ∧ net'.db = apply sent.2 net.db := by
  obtain ⟨before, write, after, hwire, _, rfl⟩ := deliver_cases h
  rw [hwire, List.mem_append, List.mem_cons] at hsent
  rcases hsent with hbefore | rfl | hafter
  · exact .inl (List.mem_append_left _ hbefore)
  · exact .inr ⟨rfl, rfl⟩
  · exact .inl (List.mem_append_right _ hafter)

theorem mem_states_of_deliver (h : net.deliver c apply = some net') {db : D}
    (hdb : db ∈ net.states) : db ∈ net'.states := by
  rw [deliver_states h]
  exact List.mem_append_left _ hdb

/-- A relation between neighbouring states. -/
theorem deliver_isChain {R : D → D → Prop} (h : net.deliver c apply = some net')
    (hchain : net.states.IsChain R) (hlast : R net.db net'.db) : net'.states.IsChain R := by
  rw [deliver_states h]
  refine hchain.append (.singleton _) ?_
  intro last hmem next hnext
  obtain rfl : net.db = last := by simpa [states] using hmem
  obtain rfl : net'.db = next := by simpa using hnext
  exact hlast

/-- The delivered write is the head of its client's outbox. -/
theorem deliver_outbox_self (h : net.deliver c apply = some net') :
    ∃ write, net.outbox c = write :: net'.outbox c ∧
      net'.db = apply write net.db ∧ (c, write) ∈ net.wire := by
  obtain ⟨before, write, after, hwire, hbefore, rfl⟩ := deliver_cases h
  have hnone : before.filter (·.1 = c) = [] := by
    simpa [List.filter_eq_nil_iff] using hbefore
  refine ⟨write, ?_, rfl, by simp [hwire]⟩
  simp [outbox, hwire, List.filter_append, hnone]

theorem deliver_outbox_ne (h : net.deliver c apply = some net') {other : C}
    (hne : other ≠ c) : net'.outbox other = net.outbox other := by
  obtain ⟨before, write, after, hwire, _, rfl⟩ := deliver_cases h
  simp [outbox, hwire, List.filter_append, Ne.symm hne]

end Deliver

/-- What is on the wire was issued, in the same order. -/
def Honest : Prop := (net.wire.map (·.2)).Sublist net.issued

theorem Honest.of_start (db : D) : (start db : Net C W D).Honest := List.Sublist.refl _

variable {net net' c} in
theorem Honest.issue (h : net.Honest) (writes : List W) : (net.issue c writes).Honest := by
  simp only [Honest, issue_wire, issue_issued, List.map_append, List.map_map,
    Function.comp_def, List.map_id']
  exact h.append (List.Sublist.refl _)

variable {net net' c} in
theorem Honest.deliver [DecidableEq C] {apply : W → D → D} (h : net.Honest)
    (hdeliver : net.deliver c apply = some net') : net'.Honest := by
  rw [Honest, deliver_issued hdeliver]
  exact ((deliver_wire_sublist hdeliver).map _).trans h

variable {net} in
theorem Honest.mem_issued (h : net.Honest) {sent : C × W} (hsent : sent ∈ net.wire) :
    sent.2 ∈ net.issued :=
  h.subset (List.mem_map_of_mem hsent)

theorem mem_outbox [DecidableEq C] {write : W} :
    write ∈ net.outbox c ↔ (c, write) ∈ net.wire := by
  simp [outbox]

end Net

/-- A register of the store that no delivery order can lower. The stored value
is at most every value on the wire; two values of one client rise in the order
issued, and two values of different clients are equal, since either may arrive
first. -/
structure Ascending {V : Type*} [LE V] (read : D → Option V)
    (assigns : W → Option V) (net : Net C W D) : Prop where
  stored : ∀ v, read net.db = some v →
    ∀ sent ∈ net.wire, ∀ u, assigns sent.2 = some u → v ≤ u
  queued : net.wire.Pairwise fun earlier later =>
    ∀ u v, assigns earlier.2 = some u → assigns later.2 = some v →
      u ≤ v ∧ (earlier.1 ≠ later.1 → u = v)

namespace Ascending

variable {V : Type*} [PartialOrder V] {read : D → Option V}
  {assigns : W → Option V} {net net' : Net C W D} {c : C}

theorem of_start (db : D) : Ascending read assigns (Net.start db : Net C W D) where
  stored := by simp
  queued := by simp

/-- Issuing keeps the register ascending when each new value is at least the
stored value, the client's own queued values and the new ones before it, and
equal to the queued values of every other client. -/
theorem issue (h : Ascending read assigns net) (writes : List W)
    (hstored : ∀ v, read net.db = some v →
      ∀ w ∈ writes, ∀ u, assigns w = some u → v ≤ u)
    (hqueued : ∀ sent ∈ net.wire, ∀ w ∈ writes, ∀ u v,
      assigns sent.2 = some u → assigns w = some v →
        u ≤ v ∧ (sent.1 ≠ c → u = v))
    (hnew : writes.Pairwise fun earlier later => ∀ u v,
      assigns earlier = some u → assigns later = some v → u ≤ v) :
    Ascending read assigns (net.issue c writes) where
  stored := by
    intro v hv sent hsent u hu
    simp only [Net.issue_wire, List.mem_append, List.mem_map] at hsent
    rcases hsent with hold | ⟨w, hw, rfl⟩
    · exact h.stored v hv sent hold u hu
    · exact hstored v hv w hw u hu
  queued := by
    rw [Net.issue_wire, List.pairwise_append]
    refine ⟨h.queued, ?_, ?_⟩
    · rw [List.pairwise_map]
      exact hnew.imp fun himp u v hu hv => ⟨himp u v hu hv, fun hne => absurd rfl hne⟩
    · intro sent hsent added hadded
      obtain ⟨w, hw, rfl⟩ := List.mem_map.mp hadded
      exact hqueued sent hsent w hw

variable [DecidableEq C] {apply : W → D → D}

/-- A delivery keeps the register ascending, provided a write stores what it
assigns, and a write that assigns nothing leaves the value or clears it. -/
theorem deliver (h : Ascending read assigns net)
    (hdeliver : net.deliver c apply = some net')
    (hassign : ∀ w d v, assigns w = some v → ∀ u, read (apply w d) = some u → u = v)
    (hother : ∀ w d u, (c, w) ∈ net.wire → assigns w = none →
      read (apply w d) = some u → read d = some u ∨
        ∀ sent ∈ net.wire, ∀ v, assigns sent.2 = some v → u ≤ v) :
    Ascending read assigns net' := by
  have hsub := Net.deliver_wire_sublist hdeliver
  obtain ⟨before, write, after, hwire, hbefore, rfl⟩ := Net.deliver_cases hdeliver
  refine ⟨?_, h.queued.sublist hsub⟩
  intro v hv sent hsent u hu
  have hin : sent ∈ net.wire := hsub.subset hsent
  cases hw : assigns write with
  | none =>
      rcases hother write net.db v (by simp [hwire]) hw hv with hkept | hlow
      · exact h.stored v hkept sent hin u hu
      · exact hlow sent hin u hu
  | some stored =>
      have hvs : v = stored := hassign write net.db stored hw v hv
      subst hvs
      have hpairs := h.queued
      rw [hwire, List.pairwise_append] at hpairs
      obtain ⟨_, hlater, hcross⟩ := hpairs
      rcases List.mem_append.mp hsent with hearlier | hafter
      · have hpair := hcross sent hearlier (c, write) (by simp) u v hu hw
        exact (hpair.2 (hbefore sent hearlier)).ge
      · exact (List.rel_of_pairwise_cons hlater hafter v u hw hu).1

omit [DecidableEq C] in
/-- A value that is delivered is not below the stored one. -/
theorem deliver_le (h : Ascending read assigns net)
    (hassign : ∀ w d v, assigns w = some v → ∀ u, read (apply w d) = some u → u = v)
    {w : W} (hw : (c, w) ∈ net.wire) {old new assigned : V} (hval : assigns w = some assigned)
    (hold : read net.db = some old) (hnew : read (apply w net.db) = some new) :
    old ≤ new := by
  rw [hassign w net.db assigned hval new hnew]
  exact h.stored old hold (c, w) hw assigned hval

end Ascending

/-- A register that is `v` once every write has arrived: it is `v` and no write
to it is on its way, or the only one that is makes it `v`. -/
def Becomes {V : Type*} (read : D → Option V) (assigns : W → Option V) (v : V)
    (net : Net C W D) : Prop :=
  (read net.db = some v ∧ ∀ sent ∈ net.wire, assigns sent.2 = none) ∨
    net.wire.filterMap (fun sent => assigns sent.2) = [v]

namespace Becomes

variable {V : Type*} {read : D → Option V} {assigns : W → Option V} {v : V}
  {net net' : Net C W D} {c : C} {writes : List W}

theorem of_quiet (h : Becomes read assigns v net) (hquiet : net.wire = []) :
    read net.db = some v := by
  rcases h with ⟨hread, _⟩ | hwire
  · exact hread
  · simp [hquiet] at hwire

/-- With no write to it on its way, the register is what it becomes. -/
theorem read_eq (h : Becomes read assigns v net)
    (hnone : ∀ sent ∈ net.wire, assigns sent.2 = none) : read net.db = some v := by
  rcases h with ⟨hread, _⟩ | hwire
  · exact hread
  · rw [List.filterMap_eq_nil_iff.mpr hnone] at hwire
    cases hwire

/-- Writes to other registers. -/
theorem issue_other (h : Becomes read assigns v net) (hnone : ∀ w ∈ writes, assigns w = none) :
    Becomes read assigns v (net.issue c writes) := by
  rcases h with ⟨hread, hwire⟩ | hwire
  · refine .inl ⟨hread, ?_⟩
    intro sent hsent
    simp only [Net.issue_wire, List.mem_append, List.mem_map] at hsent
    rcases hsent with hold | ⟨w, hw, rfl⟩
    · exact hwire sent hold
    · exact hnone w hw
  · right
    have hnew : (writes.map (c, ·)).filterMap (fun sent => assigns sent.2) = [] := by
      simpa [List.filterMap_eq_nil_iff] using hnone
    rw [Net.issue_wire, List.filterMap_append, hwire, hnew, List.append_nil]

/-- One write to the register, when no earlier one is on its way. -/
theorem of_issue (hnone : ∀ sent ∈ net.wire, assigns sent.2 = none)
    (hwrites : writes.filterMap assigns = [v]) :
    Becomes read assigns v (net.issue c writes) := by
  right
  have hold : net.wire.filterMap (fun sent => assigns sent.2) = [] :=
    List.filterMap_eq_nil_iff.mpr hnone
  rw [Net.issue_wire, List.filterMap_append, hold, List.nil_append, List.filterMap_map]
  exact hwrites

/-- A delivery, when a write stores what it assigns and one that assigns nothing
leaves the register. -/
theorem deliver [DecidableEq C] {apply : W → D → D} (h : Becomes read assigns v net)
    (hdeliver : net.deliver c apply = some net')
    (hassign : ∀ w d u, assigns w = some u → read (apply w d) = some u)
    (hother : ∀ w, (c, w) ∈ net.wire → assigns w = none → read net.db = some v →
      read (apply w net.db) = some v) :
    Becomes read assigns v net' := by
  have hsub := Net.deliver_wire_sublist hdeliver
  obtain ⟨before, write, after, hwire, _, rfl⟩ := Net.deliver_cases hdeliver
  have hmem : (c, write) ∈ net.wire := by simp [hwire]
  rcases h with ⟨hread, hnone⟩ | hone
  · exact .inl ⟨hother write hmem (hnone _ hmem) hread,
      fun sent hsent => hnone sent (hsub.subset hsent)⟩
  rw [hwire, List.filterMap_append, List.filterMap_cons] at hone
  cases hwrite : assigns write with
  | none =>
      right
      rw [hwrite] at hone
      rw [List.filterMap_append]
      exact hone
  | some u =>
      -- the delivered write is the only one to the register
      rw [hwrite] at hone
      obtain ⟨hbefore, rfl, hafter⟩ : before.filterMap (fun sent => assigns sent.2) = [] ∧
          u = v ∧ after.filterMap (fun sent => assigns sent.2) = [] := by
        cases hlist : before.filterMap (fun sent => assigns sent.2) with
        | nil => simpa [hlist] using hone
        | cons _ rest => simp [hlist] at hone
      refine .inl ⟨hassign write net.db u hwrite, ?_⟩
      intro sent hsent
      rcases List.mem_append.mp hsent with hearlier | hlater
      · exact List.filterMap_eq_nil_iff.mp hbefore sent hearlier
      · exact List.filterMap_eq_nil_iff.mp hafter sent hlater

end Becomes

end Outbox
