import Auctioneer.Library.Outbox
import Mathlib.Data.List.Infix

/-!
Reading one's own writes. A sender sees a state of the store with some of its
own writes on top, those that it has issued and does not know to be in that
state. They are a contiguous part of what it has sent.
-/

namespace Outbox

variable {C W D : Type*}

/-- A state, and the writes laid over it, the first one lowest. -/
structure View (W D : Type*) where
  base : D
  own : List W

/-- The contiguous parts of a list, the empty one first. -/
def segments (sent : List W) : List (List W) := sent.tails.flatMap List.inits

theorem mem_segments {own sent : List W} : own ∈ segments sent ↔ own <:+: sent := by
  simp only [segments, List.mem_flatMap, List.mem_tails, List.mem_inits]
  constructor
  · rintro ⟨part, hsuffix, hprefix⟩
    exact hprefix.isInfix.trans hsuffix.isInfix
  · rintro ⟨before, after, rfl⟩
    exact ⟨own ++ after, by simp, by simp⟩

theorem segments_head (sent : List W) : ∃ rest, segments sent = [] :: rest := by
  cases sent <;> simp [segments]

/-- The views of a sender: every state with nothing on top, and then with each
part of what has been sent. -/
def views (states : List D) (sent : List W) : List (View W D) :=
  (segments sent).flatMap fun own => states.map fun base => ⟨base, own⟩

theorem mem_views {states : List D} {sent : List W} {view : View W D} :
    view ∈ views states sent ↔ view.base ∈ states ∧ view.own <:+: sent := by
  simp only [views, List.mem_flatMap, mem_segments, List.mem_map]
  constructor
  · rintro ⟨own, hown, base, hbase, rfl⟩
    exact ⟨hbase, hown⟩
  · rintro ⟨hbase, hown⟩
    exact ⟨view.own, hown, view.base, hbase, rfl⟩

theorem views_getElem? {states : List D} (sent : List W) {n : ℕ} {d : D}
    (h : states[n]? = some d) : (views states sent)[n]? = some ⟨d, []⟩ := by
  obtain ⟨hn, _⟩ := List.getElem?_eq_some_iff.mp h
  obtain ⟨rest, hrest⟩ := segments_head sent
  rw [views, hrest, List.flatMap_cons, List.getElem?_append_left (by simpa using hn)]
  simp [h]

namespace View

variable {apply : W → D → D}

def shown (apply : W → D → D) (view : View W D) : D :=
  view.own.foldl (fun d w => apply w d) view.base

@[simp] theorem shown_nil (d : D) : shown apply ⟨d, []⟩ = d := rfl

/-- What every write keeps, the writes on top keep. -/
theorem shown_of_base {p : D → Prop} (view : View W D)
    (hkeep : ∀ w ∈ view.own, ∀ d, p d → p (apply w d)) (hbase : p view.base) :
    p (view.shown apply) :=
  List.foldlRecOn (motive := p) view.own _ hbase fun d hd w hw => hkeep w hw d hd

/-- What one of them brings about and the others keep, too. -/
theorem shown_of_mem {p : D → Prop} (view : View W D) {w : W} (hw : w ∈ view.own)
    (hkeep : ∀ w ∈ view.own, ∀ d, p d → p (apply w d)) (hbrings : ∀ d, p (apply w d)) :
    p (view.shown apply) := by
  obtain ⟨base, own⟩ := view
  obtain ⟨before, after, rfl⟩ := List.append_of_mem hw
  rw [shown, List.foldl_append, List.foldl_cons]
  exact shown_of_base ⟨_, after⟩ (fun w hw => hkeep w (by simp [hw])) (hbrings _)

/-- A value that is seen was set by a write on top, or is that of the state. -/
theorem shown_written {A V : Type*} (read : D → A → Option V) {sets : W → A → V → Prop}
    (hsets : ∀ w d a v, read (apply w d) a = some v → sets w a v ∨ read d a = some v)
    {view : View W D} {a : A} {v : V} (h : read (view.shown apply) a = some v) :
    (∃ w ∈ view.own, sets w a v) ∨ read view.base a = some v := by
  revert h
  refine view.shown_of_base (p := fun d => read d a = some v →
    (∃ w ∈ view.own, sets w a v) ∨ read view.base a = some v) ?_ .inr
  intro w hw d hd hread
  rcases hsets w d a v hread with hset | hkept
  · exact .inl ⟨w, hw, hset⟩
  · exact hd hkept

end View

/-- What the senders have sent: all of it has been issued, what has left the wire
has been applied, and what is left of it is the last that was sent. -/
structure Accounted [DecidableEq C] (apply : W → D → D) (sent : C → List W) (net : Net C W D) :
    Prop where
  issued : ∀ c, ∀ w ∈ sent c, w ∈ net.issued
  settled : ∀ c, ∀ w ∈ sent c, (c, w) ∈ net.wire ∨ ∃ d, apply w d ∈ net.states
  queued : ∀ c, net.outbox c <:+ sent c

namespace Accounted

variable [DecidableEq C] {apply : W → D → D} {sent : C → List W} {net net' : Net C W D} {c : C}

theorem of_start (db : D) : Accounted apply (fun _ => []) (Net.start db : Net C W D) where
  issued := by simp
  settled := by simp
  queued := by simp

theorem issue (h : Accounted apply sent net) (writes : List W) :
    Accounted apply (Function.update sent c (sent c ++ writes)) (net.issue c writes) where
  issued := by
    intro other w hw
    rw [Net.issue_issued, List.mem_append]
    by_cases hother : other = c
    · subst hother
      rw [Function.update_self, List.mem_append] at hw
      exact hw.imp_left (h.issued other w)
    · rw [Function.update_of_ne hother] at hw
      exact .inl (h.issued other w hw)
  settled := by
    intro other w hw
    rw [Net.issue_wire, Net.issue_states, List.mem_append, List.mem_map]
    by_cases hother : other = c
    · subst hother
      rw [Function.update_self, List.mem_append] at hw
      rcases hw with hold | hnew
      · exact (h.settled other w hold).imp_left .inl
      · exact .inl (.inr ⟨w, hnew, rfl⟩)
    · rw [Function.update_of_ne hother] at hw
      exact (h.settled other w hw).imp_left .inl
  queued := by
    intro other
    by_cases hother : other = c
    · subst hother
      obtain ⟨left, hleft⟩ := h.queued other
      rw [Function.update_self, Net.outbox_issue_self, ← hleft]
      exact ⟨left, by simp⟩
    · rw [Function.update_of_ne hother, Net.outbox_issue_ne _ _ hother]
      exact h.queued other

theorem deliver (h : Accounted apply sent net) (hdeliver : net.deliver c apply = some net') :
    Accounted apply sent net' where
  issued := by
    intro other w hw
    rw [Net.deliver_issued hdeliver]
    exact h.issued other w hw
  settled := by
    intro other w hw
    rcases h.settled other w hw with hwire | ⟨d, hd⟩
    · rcases Net.mem_wire_of_deliver hdeliver hwire with hleft | ⟨_, happlied⟩
      · exact .inl hleft
      · exact .inr ⟨net.db, happlied ▸ Net.db_mem_states net'⟩
    · exact .inr ⟨d, Net.mem_states_of_deliver hdeliver hd⟩
  queued := by
    intro other
    by_cases hother : other = c
    · subst hother
      obtain ⟨write, houtbox, _⟩ := Net.deliver_outbox_self hdeliver
      have hqueued := h.queued other
      rw [houtbox] at hqueued
      exact (List.suffix_cons write _).trans hqueued
    · rw [Net.deliver_outbox_ne hdeliver hother]
      exact h.queued other

end Accounted

end Outbox
