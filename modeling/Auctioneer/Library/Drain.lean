import Auctioneer.Library.Outbox
import Mathlib.Data.List.Basic

/-!
Delivering all that is outstanding. When the writes of different clients commute
up to an equivalence of stores, every order of delivery ends where the order of
issue does.
-/

namespace Outbox

variable {C W D : Type*} [DecidableEq C] {apply : W → D → D}

namespace Net

/-- The clients whose oldest writes arrive, one after the other. -/
def delivers (apply : W → D → D) : List C → Net C W D → Option (Net C W D)
  | [], net => some net
  | c :: cs, net => (net.deliver c apply).bind (delivers apply cs)

/-- Every write of the wire applied, in the order of issue. -/
def settled (apply : W → D → D) (net : Net C W D) : D :=
  net.wire.foldl (fun db sent => apply sent.2 db) net.db

end Net

/-- An equivalence of stores that every write respects. -/
structure Respects (apply : W → D → D) (R : D → D → Prop) : Prop where
  equivalence : Equivalence R
  apply : ∀ w {d d'}, R d d' → R (apply w d) (apply w d')

/-- Either write may come first. -/
def Commute (apply : W → D → D) (R : D → D → Prop) (w w' : W) : Prop :=
  ∀ d, R (apply w (apply w' d)) (apply w' (apply w d))

/-- The outstanding writes of different clients commute. -/
def Unconflicted (apply : W → D → D) (R : D → D → Prop) (net : Net C W D) : Prop :=
  net.wire.Pairwise fun sent sent' => sent.1 ≠ sent'.1 → Commute apply R sent.2 sent'.2

section Settled

variable {R : D → D → Prop} {net net' : Net C W D} {c : C}

omit [DecidableEq C] in
theorem Respects.foldl (h : Respects apply R) (wire : List (C × W)) {d d' : D} (hd : R d d') :
    R (wire.foldl (fun db sent => apply sent.2 db) d)
      (wire.foldl (fun db sent => apply sent.2 db) d') := by
  induction wire generalizing d d' with
  | nil => exact hd
  | cons sent wire ih => exact ih (h.apply sent.2 hd)

omit [DecidableEq C] in
/-- A write that commutes with all before it may come first. -/
theorem Respects.pull (h : Respects apply R) {before : List (C × W)} {w : W}
    (hcommute : ∀ sent ∈ before, Commute apply R sent.2 w) (d : D) :
    R (apply w (before.foldl (fun db sent => apply sent.2 db) d))
      (before.foldl (fun db sent => apply sent.2 db) (apply w d)) := by
  induction before generalizing d with
  | nil => exact h.equivalence.refl _
  | cons sent before ih =>
      have hfirst := ih (fun later hlater => hcommute later (List.mem_cons_of_mem _ hlater))
        (apply sent.2 d)
      have hswap := h.equivalence.symm (hcommute sent List.mem_cons_self d)
      exact h.equivalence.trans hfirst (h.foldl before hswap)

/-- One delivery does not change where the wire leads. -/
theorem Unconflicted.settled_deliver (hquiet : Unconflicted apply R net)
    (h : Respects apply R) (hdeliver : net.deliver c apply = some net') :
    R (net.settled apply) (net'.settled apply) := by
  obtain ⟨before, write, after, hwire, hbefore, rfl⟩ := Net.deliver_cases hdeliver
  rw [Unconflicted, hwire, List.pairwise_append] at hquiet
  have hcommute : ∀ sent ∈ before, Commute apply R sent.2 write :=
    fun sent hsent =>
      hquiet.2.2 sent hsent (c, write) List.mem_cons_self (hbefore sent hsent)
  simp only [Net.settled, hwire, List.foldl_append, List.foldl_cons]
  exact h.foldl after (h.pull hcommute net.db)

theorem Unconflicted.deliver (hquiet : Unconflicted apply R net)
    (hdeliver : net.deliver c apply = some net') : Unconflicted apply R net' :=
  hquiet.sublist (Net.deliver_wire_sublist hdeliver)

/-- Nor does any number of them. -/
theorem Unconflicted.settled_delivers (hquiet : Unconflicted apply R net)
    (h : Respects apply R) {cs : List C} (hdeliver : net.delivers apply cs = some net') :
    R (net.settled apply) (net'.settled apply) := by
  induction cs generalizing net with
  | nil =>
      obtain rfl := Option.some.inj hdeliver
      exact h.equivalence.refl _
  | cons c cs ih =>
      obtain ⟨next, hnext, hrest⟩ := Option.bind_eq_some_iff.mp hdeliver
      have hone := hquiet.settled_deliver h hnext
      exact h.equivalence.trans hone (ih (hquiet.deliver hnext) hrest)

/-- Two orders of delivery that leave nothing outstanding end in equivalent
stores. -/
theorem Unconflicted.confluent (hquiet : Unconflicted apply R net) (h : Respects apply R)
    {net₁ net₂ : Net C W D} {cs₁ cs₂ : List C} (h₁ : net.delivers apply cs₁ = some net₁)
    (h₂ : net.delivers apply cs₂ = some net₂) (hend₁ : net₁.wire = []) (hend₂ : net₂.wire = []) :
    R net₁.db net₂.db := by
  have hleft := hquiet.settled_delivers h h₁
  have hright := hquiet.settled_delivers h h₂
  simp only [Net.settled, hend₁, hend₂, List.foldl_nil] at hleft hright
  exact h.equivalence.trans (h.equivalence.symm hleft) hright

end Settled

end Outbox
