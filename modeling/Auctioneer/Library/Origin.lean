import Auctioneer.Library.Outbox
import Mathlib.Data.List.Nodup
import Mathlib.Data.List.Pairwise

/-!
Where the contents of a shared store come from. A value that is read was set by
an issued write; a key that is held was created by one issued write, and by no
other; and names stay distinct when only new ones are issued.
-/

namespace Outbox

variable {C W D : Type*} {net net' : Net C W D} {c : C}

/-- Every value that a cell of the store has held was set by an issued write. -/
def Written {A V : Type*} (read : D → A → Option V) (sets : W → A → V → Prop)
    (net : Net C W D) : Prop :=
  ∀ db ∈ net.states, ∀ a v, read db a = some v → ∃ w ∈ net.issued, sets w a v

namespace Written

variable {A V : Type*} {read : D → A → Option V} {sets : W → A → V → Prop}

theorem of_start {db : D} (hempty : ∀ a, read db a = none) :
    Written read sets (Net.start db : Net C W D) := by
  intro d hd a v hv
  obtain rfl : d = db := by simpa using hd
  simp [hempty] at hv

theorem issue (h : Written read sets net) (writes : List W) :
    Written read sets (net.issue c writes) := by
  intro d hd a v hv
  obtain ⟨w, hw, hset⟩ := h d (by simpa using hd) a v hv
  exact ⟨w, by simp [hw], hset⟩

theorem deliver [DecidableEq C] {apply : W → D → D} (h : Written read sets net)
    (hhonest : net.Honest) (hdeliver : net.deliver c apply = some net')
    (hsets : ∀ w d a v, read (apply w d) a = some v → sets w a v ∨ read d a = some v) :
    Written read sets net' := by
  obtain ⟨w, _, hdb, hwire⟩ := Net.deliver_outbox_self hdeliver
  intro d hd a v hv
  rw [Net.deliver_issued hdeliver]
  rw [Net.deliver_states hdeliver, List.mem_append, List.mem_singleton] at hd
  rcases hd with hold | rfl
  · exact h d hold a v hv
  · rw [hdb] at hv
    rcases hsets w net.db a v hv with hset | hkept
    · exact ⟨w, hhonest.mem_issued hwire, hset⟩
    · exact h net.db net.db_mem_states a v hkept

end Written

/-- In a list of which no two writes create one key, a key has one creation. -/
theorem eq_of_nodup_filterMap {K : Type*} {creates : W → Option K} {writes : List W}
    (h : (writes.filterMap creates).Nodup) {w₁ w₂ : W} (hw₁ : w₁ ∈ writes) (hw₂ : w₂ ∈ writes)
    {key : K} (hkey₁ : creates w₁ = some key) (hkey₂ : creates w₂ = some key) : w₁ = w₂ := by
  by_contra hne
  have hpairs := List.pairwise_filterMap.mp h
  have hsymm : Std.Symm fun a b : W =>
      ∀ k, creates a = some k → ∀ k', creates b = some k' → k ≠ k' :=
    ⟨fun a b hab k hk k' hk' => (hab k' hk' k hk).symm⟩
  exact hpairs.forall hw₁ hw₂ hne key hkey₁ key hkey₂ rfl

/-- Keys are created once: no two issued writes create one key, the store holds
only keys that a write created, and it has never held the key of a creation
that is still on its way. -/
structure Keyed {K : Type*} (creates : W → Option K) (holds : D → K → Prop)
    (net : Net C W D) : Prop where
  distinct : (net.issued.filterMap creates).Nodup
  origin : ∀ db ∈ net.states, ∀ key, holds db key → key ∈ net.issued.filterMap creates
  pending : ∀ sent ∈ net.wire, ∀ key, creates sent.2 = some key →
    ∀ db ∈ net.states, ¬ holds db key

namespace Keyed

variable {K : Type*} {creates : W → Option K} {holds : D → K → Prop}

theorem of_start {db : D} (hempty : ∀ key, ¬ holds db key) :
    Keyed creates holds (Net.start db : Net C W D) where
  distinct := by simp
  origin := by simp [hempty]
  pending := by simp

/-- New writes keep keys distinct when the keys they create are new. -/
theorem issue (h : Keyed creates holds net) {writes : List W}
    (hdistinct : (writes.filterMap creates).Nodup)
    (hnew : ∀ key ∈ writes.filterMap creates, key ∉ net.issued.filterMap creates) :
    Keyed creates holds (net.issue c writes) where
  distinct := by
    rw [Net.issue_issued, List.filterMap_append, List.nodup_append]
    refine ⟨h.distinct, hdistinct, ?_⟩
    rintro old hold new hadded rfl
    exact hnew old hadded hold
  origin := by
    intro db hdb key hholds
    rw [Net.issue_issued, List.filterMap_append, List.mem_append]
    exact .inl (h.origin db (by simpa using hdb) key hholds)
  pending := by
    intro sent hsent key hcreates db hdb hholds
    rw [Net.issue_states] at hdb
    simp only [Net.issue_wire, List.mem_append, List.mem_map] at hsent
    rcases hsent with hold | ⟨w, hw, rfl⟩
    · exact h.pending sent hold key hcreates db hdb hholds
    · exact hnew key (List.mem_filterMap.mpr ⟨w, hw, hcreates⟩) (h.origin db hdb key hholds)

/-- A delivery holds no key that was neither held before nor created by the
write delivered. -/
theorem deliver [DecidableEq C] {apply : W → D → D} (h : Keyed creates holds net)
    (hhonest : net.Honest) (hdeliver : net.deliver c apply = some net')
    (hadds : ∀ w key, (c, w) ∈ net.wire → holds (apply w net.db) key →
      (∃ db ∈ net.states, holds db key) ∨ creates w = some key) :
    Keyed creates holds net' := by
  have hissued := Net.deliver_issued hdeliver
  have hstates := Net.deliver_states hdeliver
  have hsub := Net.deliver_wire_sublist hdeliver
  obtain ⟨before, w, after, hwire, _, rfl⟩ := Net.deliver_cases hdeliver
  have hmem : (c, w) ∈ net.wire := by simp [hwire]
  refine ⟨by rw [hissued]; exact h.distinct, ?_, ?_⟩
  · intro db hdb key hholds
    rw [hissued]
    rw [hstates, List.mem_append, List.mem_singleton] at hdb
    rcases hdb with hold | rfl
    · exact h.origin db hold key hholds
    · rcases hadds w key hmem hholds with ⟨earlier, hearlier, hheld⟩ | hcreates
      · exact h.origin earlier hearlier key hheld
      · exact List.mem_filterMap.mpr ⟨w, hhonest.mem_issued hmem, hcreates⟩
  · intro sent hsent key hsentKey db hdb hholds
    have hpending := h.pending sent (hsub.subset hsent) key hsentKey
    rw [hstates, List.mem_append, List.mem_singleton] at hdb
    rcases hdb with hold | rfl
    · exact hpending db hold hholds
    rcases hadds w key hmem hholds with ⟨earlier, hearlier, hheld⟩ | hcreates
    · exact hpending earlier hearlier hheld
    -- the key would be created twice on the wire
    have hnodup := h.distinct.sublist (hhonest.filterMap creates)
    rw [hwire] at hnodup
    simp only [List.map_append, List.map_cons, List.filterMap_append, List.filterMap_cons,
      hcreates] at hnodup
    have hmiddle := (List.nodup_middle.mp hnodup)
    refine (List.nodup_cons.mp hmiddle).1 ?_
    rw [← List.filterMap_append, ← List.map_append]
    exact List.mem_filterMap.mpr ⟨sent.2, List.mem_map_of_mem hsent, hsentKey⟩

/-- The write that creates a key is unique. -/
theorem eq_of_creates (key : K) (h : Keyed creates holds net) {w₁ w₂ : W}
    (hw₁ : w₁ ∈ net.issued) (hw₂ : w₂ ∈ net.issued) (hkey₁ : creates w₁ = some key)
    (hkey₂ : creates w₂ = some key) : w₁ = w₂ :=
  eq_of_nodup_filterMap h.distinct hw₁ hw₂ hkey₁ hkey₂

end Keyed

/-- Names that no delivery order can give to two keys: the store gives each name
to one key, and the names on the wire are new and differ. -/
structure Distinct {K N : Type*} (name : D → K → Option N) (assigns : W → Option (K × N))
    (net : Net C W D) : Prop where
  stored : ∀ key key' n, name net.db key = some n → name net.db key' = some n → key = key'
  pending : ∀ sent ∈ net.wire, ∀ key n, assigns sent.2 = some (key, n) →
    ∀ key', name net.db key' ≠ some n
  queued : net.wire.Pairwise fun earlier later => ∀ key n key' n',
    assigns earlier.2 = some (key, n) → assigns later.2 = some (key', n') → n ≠ n'

namespace Distinct

variable {K N : Type*} {name : D → K → Option N} {assigns : W → Option (K × N)}

theorem of_start {db : D} (hempty : ∀ key, name db key = none) :
    Distinct name assigns (Net.start db : Net C W D) where
  stored := by simp [hempty]
  pending := by simp
  queued := by simp

/-- New names are given to none of the keys of the store and the wire. -/
theorem issue (h : Distinct name assigns net) {writes : List W}
    (hstored : ∀ w ∈ writes, ∀ key n, assigns w = some (key, n) →
      ∀ key', name net.db key' ≠ some n)
    (hqueued : ∀ sent ∈ net.wire, ∀ w ∈ writes, ∀ key n key' n',
      assigns sent.2 = some (key, n) → assigns w = some (key', n') → n ≠ n')
    (hnew : writes.Pairwise fun earlier later => ∀ key n key' n',
      assigns earlier = some (key, n) → assigns later = some (key', n') → n ≠ n') :
    Distinct name assigns (net.issue c writes) where
  stored := h.stored
  pending := by
    intro sent hsent
    simp only [Net.issue_wire, List.mem_append, List.mem_map] at hsent
    rcases hsent with hold | ⟨w, hw, rfl⟩
    · exact h.pending sent hold
    · exact hstored w hw
  queued := by
    rw [Net.issue_wire, List.pairwise_append]
    refine ⟨h.queued, by rwa [List.pairwise_map], ?_⟩
    intro sent hsent added hadded
    obtain ⟨w, hw, rfl⟩ := List.mem_map.mp hadded
    exact hqueued sent hsent w hw

/-- A delivery keeps names distinct when it names no key but the one that the
write assigns. -/
theorem deliver [DecidableEq C] {apply : W → D → D} (h : Distinct name assigns net)
    (hdeliver : net.deliver c apply = some net')
    (hnames : ∀ w key n, (c, w) ∈ net.wire → name (apply w net.db) key = some n →
      name net.db key = some n ∨ assigns w = some (key, n)) :
    Distinct name assigns net' := by
  have hsub := Net.deliver_wire_sublist hdeliver
  obtain ⟨before, w, after, hwire, _, rfl⟩ := Net.deliver_cases hdeliver
  have hmem : (c, w) ∈ net.wire := by simp [hwire]
  refine ⟨?_, ?_, h.queued.sublist hsub⟩
  · intro key key' n hkey hkey'
    rcases hnames w key n hmem hkey with hold | hnew
    · rcases hnames w key' n hmem hkey' with hold' | hnew'
      · exact h.stored key key' n hold hold'
      · exact absurd hold (h.pending _ hmem key' n hnew' key)
    · rcases hnames w key' n hmem hkey' with hold' | hnew'
      · exact absurd hold' (h.pending _ hmem key n hnew key')
      · rw [hnew] at hnew'
        exact (Prod.mk.inj (Option.some.inj hnew')).1
  · intro sent hsent key n hassigns key' hkey'
    rcases hnames w key' n hmem hkey' with hold | hnew
    · exact h.pending sent (hsub.subset hsent) key n hassigns key' hold
    -- the name would be on the wire twice
    have hpairs := h.queued
    rw [hwire, List.pairwise_append] at hpairs
    obtain ⟨_, hlater, hcross⟩ := hpairs
    rcases List.mem_append.mp hsent with hearlier | hafter
    · exact hcross sent hearlier (c, w) (by simp) key n key' n hassigns hnew rfl
    · exact List.rel_of_pairwise_cons hlater hafter key' n key n hnew hassigns rfl

end Distinct

end Outbox
