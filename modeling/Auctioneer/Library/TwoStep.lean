import Auctioneer.Library.Outbox

/-!
Updates made of two writes. A client issues both together, but they are applied
one at a time, and the store is torn in between. If no client applies a half of
an update while another client's update is half applied, the store is whole
whenever no update is.
-/

namespace Outbox

/-- Which half of which update a write is. -/
inductive Half (U : Type*) where
  | first (update : U)
  | second (update : U)

variable {C W D U : Type*} (half : W → Option (Half U))

/-- Writes in which every update is whole. -/
inductive Whole : List W → Prop where
  | nil : Whole []
  | other {w : W} {ws : List W} : half w = none → Whole ws → Whole (w :: ws)
  | update {w w' : W} {u : U} {ws : List W} : half w = some (.first u) →
      half w' = some (.second u) → Whole ws → Whole (w :: w' :: ws)

/-- Writes whose first update may have been begun already. -/
inductive Begun : List W → Prop where
  | whole {ws : List W} : Whole half ws → Begun ws
  | torn {w : W} {u : U} {ws : List W} : half w = some (.second u) → Whole half ws →
      Begun (w :: ws)

/-- The client has applied the first half of `u` and not the second. -/
def Torn [DecidableEq C] (net : Net C W D) (c : C) (u : U) : Prop :=
  ∃ w ∈ (net.outbox c).head?, half w = some (.second u)

variable {half}

theorem Whole.of_none {ws : List W} (h : ∀ w ∈ ws, half w = none) : Whole half ws := by
  induction ws with
  | nil => exact .nil
  | cons w ws ih => exact .other (h w (by simp)) (ih fun w' hw' => h w' (by simp [hw']))

theorem Whole.append {ws ws' : List W} (h : Whole half ws) (h' : Whole half ws') :
    Whole half (ws ++ ws') := by
  induction h with
  | nil => exact h'
  | other hnone _ ih => exact .other hnone ih
  | update hfirst hsecond _ ih => exact .update hfirst hsecond ih

theorem Begun.append {ws ws' : List W} (h : Begun half ws) (h' : Whole half ws') :
    Begun half (ws ++ ws') := by
  cases h with
  | whole hwhole => exact .whole (hwhole.append h')
  | torn hsecond hwhole => exact .torn hsecond (hwhole.append h')

/-- What is left when the first write has gone. -/
theorem Begun.tail {w : W} {ws : List W} (h : Begun half (w :: ws)) :
    (half w = none ∧ Whole half ws) ∨
    (∃ u w' rest, half w = some (.first u) ∧ ws = w' :: rest ∧
      half w' = some (.second u) ∧ Whole half rest) ∨
    (∃ u, half w = some (.second u) ∧ Whole half ws) := by
  cases h with
  | whole hwhole =>
      cases hwhole with
      | other hnone hrest => exact .inl ⟨hnone, hrest⟩
      | update hfirst hsecond hrest =>
          exact .inr (.inl ⟨_, _, _, hfirst, rfl, hsecond, hrest⟩)
  | torn hsecond hrest => exact .inr (.inr ⟨_, hsecond, hrest⟩)

/-- What is left of whole writes when the first one has gone. -/
theorem Whole.tail {w : W} {ws : List W} (h : Whole half (w :: ws)) :
    (half w = none ∧ Whole half ws) ∨ ∃ u, half w = some (.first u) := by
  cases h with
  | other hnone hrest => exact .inl ⟨hnone, hrest⟩
  | update hfirst _ _ => exact .inr ⟨_, hfirst⟩

/-- A second half never comes first in whole writes. -/
theorem Whole.head_ne_second {ws : List W} (h : Whole half ws) {w : W}
    (hw : w ∈ ws.head?) (u : U) : half w ≠ some (.second u) := by
  intro hsecond
  cases h with
  | nil => cases hw
  | other hnone _ =>
      obtain rfl := Option.some.inj hw
      rw [hnone] at hsecond
      cases hsecond
  | update hfirst _ _ =>
      obtain rfl := Option.some.inj hw
      rw [hfirst] at hsecond
      cases hsecond

/-- At most one client is in the middle of an update. While none is, `intact`
holds of the store; while one is, `begun` holds of its update. -/
structure TwoStep [DecidableEq C] (half : W → Option (Half U)) (intact : Prop)
    (begun : U → Prop) (net : Net C W D) : Prop where
  shape : ∀ c, Begun half (net.outbox c)
  whole : (∀ c u, ¬ Torn half net c u) → intact
  torn : ∀ c u, Torn half net c u → begun u
  sole : ∀ c c' u u', Torn half net c u → Torn half net c' u' → c = c'

namespace TwoStep

variable [DecidableEq C] {intact intact' : Prop} {begun begun' : U → Prop}
  {net net' : Net C W D} {c : C}

theorem of_start {db : D} (hintact : intact) :
    TwoStep half intact begun (Net.start db : Net C W D) where
  shape _ := .whole .nil
  whole _ := hintact
  torn := by simp [Torn]
  sole := by simp [Torn]

/-- Issuing whole updates begins none of them. -/
theorem issue (h : TwoStep half intact begun net) {writes : List W}
    (hwhole : Whole half writes) (hintact : intact → intact')
    (hbegun : ∀ u, begun u → begun' u) :
    TwoStep half intact' begun' (net.issue c writes) := by
  have htorn : ∀ other u, Torn half (net.issue c writes) other u ↔ Torn half net other u := by
    intro other u
    by_cases hother : other = c
    · subst hother
      simp only [Torn, Net.outbox_issue_self]
      cases houtbox : net.outbox other with
      | cons w ws => simp
      | nil =>
          simp only [List.nil_append, List.head?_nil, Option.mem_def, reduceCtorEq,
            false_and, exists_false, iff_false]
          rintro ⟨w, hw, hsecond⟩
          exact hwhole.head_ne_second hw u hsecond
    · simp only [Torn, Net.outbox_issue_ne net c hother]
  refine ⟨?_, ?_, ?_, ?_⟩
  · intro other
    by_cases hother : other = c
    · subst hother
      rw [Net.outbox_issue_self]
      exact (h.shape other).append hwhole
    · rw [Net.outbox_issue_ne net c hother]
      exact h.shape other
  · intro hnone
    exact hintact (h.whole fun other u hother => hnone other u ((htorn other u).mpr hother))
  · intro other u hother
    exact hbegun u (h.torn other u ((htorn other u).mp hother))
  · intro c₁ c₂ u₁ u₂ h₁ h₂
    exact h.sole c₁ c₂ u₁ u₂ ((htorn c₁ u₁).mp h₁) ((htorn c₂ u₂).mp h₂)

/-- A client whose writes are whole is in the middle of none. -/
theorem not_torn_of_whole (hwhole : Whole half (net.outbox c)) (u : U) : ¬ Torn half net c u := by
  rintro ⟨next, hmem, hsecond⟩
  exact hwhole.head_ne_second hmem u hsecond

section Deliver

variable {apply : W → D → D} {w : W} {rest : List W}

theorem torn_deliver_ne (hdeliver : net.deliver c apply = some net') {other : C}
    (hne : other ≠ c) (u : U) : Torn half net' other u ↔ Torn half net other u := by
  simp only [Torn, Net.deliver_outbox_ne hdeliver hne]

theorem shape_deliver (h : TwoStep half intact begun net)
    (hdeliver : net.deliver c apply = some net') (hself : Begun half (net'.outbox c)) (other : C) :
    Begun half (net'.outbox other) := by
  by_cases hne : other = c
  · rwa [hne]
  · rw [Net.deliver_outbox_ne hdeliver hne]
    exact h.shape other

/-- A write that is no half of an update. -/
theorem deliver_unrelated (h : TwoStep half intact begun net)
    (hdeliver : net.deliver c apply = some net') (houtbox : net.outbox c = w :: net'.outbox c)
    (hnone : half w = none) (hrest : Whole half (net'.outbox c)) (hintact : intact → intact')
    (hbegun : ∀ c' w' u, (c', w') ∈ net.wire → half w' = some (.second u) → begun u → begun' u) :
    TwoStep half intact' begun' net' := by
  have hself : ∀ u, ¬ Torn half net c u := by
    rintro u ⟨next, hmem, hsecond⟩
    rw [houtbox] at hmem
    obtain rfl := Option.some.inj hmem
    rw [hnone] at hsecond
    cases hsecond
  have htorn : ∀ other u, Torn half net' other u ↔ Torn half net other u := by
    intro other u
    by_cases hne : other = c
    · subst hne
      exact iff_of_false (not_torn_of_whole hrest u) (hself u)
    · exact torn_deliver_ne hdeliver hne u
  refine ⟨h.shape_deliver hdeliver (.whole hrest), ?_, ?_, ?_⟩
  · intro hno
    exact hintact (h.whole fun other u hother => hno other u ((htorn other u).mpr hother))
  · intro other u hother
    obtain ⟨w', hw', hsecond⟩ := (htorn other u).mp hother
    have hmem : (other, w') ∈ net.wire := (Net.mem_outbox net other).mp (List.mem_of_head? hw')
    exact hbegun other w' u hmem hsecond (h.torn other u ⟨w', hw', hsecond⟩)
  · intro c₁ c₂ u₁ u₂ h₁ h₂
    exact h.sole c₁ c₂ u₁ u₂ ((htorn c₁ u₁).mp h₁) ((htorn c₂ u₂).mp h₂)

/-- A first half: now this client, and no other, is torn. -/
theorem deliver_first (h : TwoStep half intact begun net)
    (hdeliver : net.deliver c apply = some net') {w' : W} {u : U}
    (hnext : net'.outbox c = w' :: rest) (hw' : half w' = some (.second u))
    (hrest : Whole half rest) (halone : ∀ other ≠ c, ∀ u, ¬ Torn half net other u)
    (hbegun : begun' u) : TwoStep half intact' begun' net' := by
  have hsole : ∀ other u', Torn half net' other u' → other = c := by
    intro other u' hother
    by_contra hne
    exact halone other hne u' ((torn_deliver_ne hdeliver hne u').mp hother)
  have hu : ∀ u', Torn half net' c u' → u' = u := by
    rintro u' ⟨next, hmem, hsecond⟩
    rw [hnext] at hmem
    obtain rfl := Option.some.inj hmem
    rw [hw'] at hsecond
    cases hsecond
    rfl
  refine ⟨h.shape_deliver hdeliver ?_, ?_, ?_, ?_⟩
  · rw [hnext]
    exact .torn hw' hrest
  · intro hnone
    exact absurd ⟨w', by simp [hnext], hw'⟩ (hnone c u)
  · intro other u' hother
    obtain rfl := hsole other u' hother
    rwa [hu u' hother]
  · intro c₁ c₂ u₁ u₂ h₁ h₂
    rw [hsole c₁ u₁ h₁, hsole c₂ u₂ h₂]

/-- A second half: the update of this client, and so every one, is complete. -/
theorem deliver_second (h : TwoStep half intact begun net)
    (hdeliver : net.deliver c apply = some net') (hrest : Whole half (net'.outbox c))
    (halone : ∀ other ≠ c, ∀ u, ¬ Torn half net other u) (hintact : intact') :
    TwoStep half intact' begun' net' := by
  have hnone : ∀ other u, ¬ Torn half net' other u := by
    intro other u hother
    by_cases hne : other = c
    · subst hne
      exact not_torn_of_whole hrest u hother
    · exact halone other hne u ((torn_deliver_ne hdeliver hne u).mp hother)
  refine ⟨h.shape_deliver hdeliver (.whole hrest), fun _ => hintact, ?_, ?_⟩
  · intro other u hother
    exact absurd hother (hnone other u)
  · intro c₁ _ u₁ _ h₁ _
    exact absurd h₁ (hnone c₁ u₁)

/-- A delivery, when no half of an update is applied while the update of
another client is half applied. -/
theorem deliver (h : TwoStep half intact begun net)
    (hdeliver : net.deliver c apply = some net')
    (halone : ∀ w, (c, w) ∈ net.wire → half w ≠ none →
      w ∈ (net.outbox c).head? → ∀ other ≠ c, ∀ u, ¬ Torn half net other u)
    (hunrelated : ∀ w, (c, w) ∈ net.wire → net'.db = apply w net.db → half w = none →
      (intact → intact') ∧ ∀ c' w' u, (c', w') ∈ net.wire → half w' = some (.second u) →
        begun u → begun' u)
    (hfirst : ∀ w u, (c, w) ∈ net.wire → net'.db = apply w net.db →
      half w = some (.first u) → begun' u)
    (hsecond : ∀ w u, (c, w) ∈ net.wire → net'.db = apply w net.db →
      half w = some (.second u) → begun u → intact') :
    TwoStep half intact' begun' net' := by
  obtain ⟨w, houtbox, hdb, hwire⟩ := Net.deliver_outbox_self hdeliver
  have hhead : w ∈ (net.outbox c).head? := by simp [houtbox]
  have htail := h.shape c
  rw [houtbox] at htail
  rcases htail.tail with ⟨hnone, hrest⟩ | ⟨u, w', rest, hw, hnext, hw', hrest⟩ | ⟨u, hw, hrest⟩
  · obtain ⟨hintact, hbegun⟩ := hunrelated w hwire hdb hnone
    exact h.deliver_unrelated hdeliver houtbox hnone hrest hintact hbegun
  · exact h.deliver_first hdeliver hnext hw' hrest (halone w hwire (by simp [hw]) hhead)
      (hfirst w u hwire hdb hw)
  · exact h.deliver_second hdeliver hrest (halone w hwire (by simp [hw]) hhead)
      (hsecond w u hwire hdb hw (h.torn c u ⟨w, hhead, hw⟩))

end Deliver

end TwoStep

end Outbox
