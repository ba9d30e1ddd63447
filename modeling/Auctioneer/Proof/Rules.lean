import Auctioneer.Proof.Step

/-!
Induction rules for runs of the system, one for each thing that a run changes:
a client, the issued writes, the database. A step that does not touch it is
dealt with here.
-/

namespace Auctioneer

namespace System

variable {world : World} {ok : System → Label → Prop} {now : Date} {s s' : System}

/-- The sender and the write of a delivery. -/
def delivered (s : System) : Label → Option (ClientId × Issue)
  | .deliver sender => (s.net.outbox sender).head?.map (sender, ·)
  | _ => none

/-- The rule for the database and the wire. -/
theorem net_invariant (inv : Outbox.Net ClientId Issue Database → Prop)
    (hstart : inv (.start .empty))
    (hdeliver : ∀ {s sender net}, ReachesUnder world ok now s → ok s (.deliver sender) →
      s.net.deliver sender Issue.apply = some net → inv s.net → inv net)
    (hissue : ∀ {s c action client issues}, ReachesUnder world ok now s →
      ok s (.act c action) →
      (s.client c).act (s.env world c (action.ends s.now)) action =
        some (.done client issues) →
      inv s.net → inv (s.net.issue c issues))
    (h : ReachesUnder world ok now s) : inv s.net := by
  refine h.invariant (fun s => inv s.net) hstart ?_
  intro s l s' hprior hinv hok htaken
  rcases step_net htaken with ⟨hnet, _⟩ | ⟨sender, rfl, hnet, _⟩ |
    ⟨c, action, client, issues, rfl, hact, hnet, _⟩
  · rwa [hnet]
  · exact hdeliver hprior hok hnet hinv
  · rw [hnet]
    exact hissue hprior hok hact hinv

theorem honest (h : ReachesUnder world ok now s) : s.net.Honest := by
  refine net_invariant (fun net => net.Honest) (.of_start _) ?_ ?_ h
  · intro _ _ _ _ _ hnet hhonest
    exact hhonest.deliver hnet
  · intro _ _ _ _ _ _ _ _ hhonest
    exact hhonest.issue _

theorem time_le (h : s.step world l = some s') : s.now ≤ s'.now := by
  rcases step_cases h with ⟨_, _, hle, rfl⟩ | ⟨_, _, _, _, rfl⟩ | ⟨_, _, _, hle, _, rfl⟩ |
    ⟨_, _, _, _, _, hle, _, rfl⟩
  · exact hle
  · exact le_refl _
  · exact hle
  · exact hle

theorem mem_wire_of_delivered {l : Label} {sent : ClientId × Issue}
    (h : s.delivered l = some sent) : sent ∈ s.wire := by
  cases l with
  | deliver sender =>
      simp only [delivered, Option.map_eq_some_iff] at h
      obtain ⟨issue, hhead, rfl⟩ := h
      exact (Outbox.Net.mem_outbox _ sender).mp (List.mem_of_head? hhead)
  | _ => cases h

/-- Where a delivery takes the database. -/
theorem delivered_eq {sender : ClientId} {net : Outbox.Net ClientId Issue Database}
    (hdeliver : s.net.deliver sender Issue.apply = some net) :
    ∃ issue, s.delivered (.deliver sender) = some (sender, issue) ∧
      s.net.outbox sender = issue :: net.outbox sender ∧
      (sender, issue) ∈ s.wire ∧ net.db = issue.apply s.db := by
  obtain ⟨issue, houtbox, hdb, hwire⟩ := Outbox.Net.deliver_outbox_self hdeliver
  exact ⟨issue, by simp [delivered, houtbox], houtbox, hwire, hdb⟩

/-- The rule for clients. `inv` may speak of every state the database has been
in. -/
theorem client_invariant (inv : List Database → ClientId → Client → Prop)
    (hlaunch : ∀ dbs c, inv dbs c .launch)
    (hgrow : ∀ {dbs dbs' c client}, dbs ⊆ dbs' → inv dbs c client → inv dbs' c client)
    (hcrash : ∀ {dbs c client}, inv dbs c client → inv dbs c { client with crashed := true })
    (hact : ∀ {s c action client issues}, ReachesUnder world ok now s →
      ok s (.act c action) → inv s.states c (s.client c) →
      (s.client c).act (s.env world c (action.ends s.now)) action =
        some (.done client issues) →
      inv s.states c client)
    (h : ReachesUnder world ok now s) (c : ClientId) : inv s.states c (s.client c) := by
  refine h.invariant (fun s => inv s.states c (s.client c)) (hlaunch _ _) ?_
  intro s l s' hprior hinv hok htaken
  have hstates : s.states ⊆ s'.states := fun _ => step_states htaken
  rcases step_client htaken c with heq | heq | ⟨action, issues, rfl, hreact⟩
  · rw [heq]
    exact hgrow hstates hinv
  · rw [heq]
    exact hgrow hstates (hcrash hinv)
  · exact hgrow hstates (hact hprior hok hinv hreact)

/-- The rule for issued writes. -/
theorem issue_invariant (inv : List Database → Issue → Prop)
    (hgrow : ∀ {dbs dbs' issue}, dbs ⊆ dbs' → inv dbs issue → inv dbs' issue)
    (hact : ∀ {s c action client issues}, ReachesUnder world ok now s →
      ok s (.act c action) →
      (s.client c).act (s.env world c (action.ends s.now)) action =
        some (.done client issues) →
      ∀ issue ∈ issues, inv s.states issue)
    (h : ReachesUnder world ok now s) : ∀ issue ∈ s.net.issued, inv s.states issue := by
  refine net_invariant (fun net => ∀ issue ∈ net.issued, inv net.states issue) (by simp) ?_ ?_ h
  · intro s sender net _ _ hnet hinv issue hissue
    have hstates : s.states ⊆ net.states := fun _ => Outbox.Net.mem_states_of_deliver hnet
    rw [Outbox.Net.deliver_issued hnet] at hissue
    exact hgrow hstates (hinv issue hissue)
  · intro s c action client issues hprior hok hreact hinv issue hissue
    rw [Outbox.Net.issue_issued, List.mem_append] at hissue
    rcases hissue with hold | hnew
    · exact hinv issue hold
    · exact hact hprior hok hreact issue hnew

/-- The rule for the states of the database. -/
theorem db_invariant (inv : Database → Prop) (hempty : inv .empty)
    (hdeliver : ∀ {s sender issue}, ReachesUnder world ok now s → ok s (.deliver sender) →
      s.delivered (.deliver sender) = some (sender, issue) → (sender, issue) ∈ s.wire →
      (∀ db ∈ s.states, inv db) → inv (issue.apply s.db))
    (h : ReachesUnder world ok now s) : ∀ db ∈ s.states, inv db := by
  refine net_invariant (fun net => ∀ db ∈ net.states, inv db) (by simpa using hempty) ?_ ?_ h
  · intro s sender net hprior hok hnet hinv db hdb
    obtain ⟨issue, hhead, _, hwire, happlied⟩ := delivered_eq hnet
    rw [Outbox.Net.deliver_states hnet, List.mem_append, List.mem_singleton] at hdb
    rcases hdb with hold | rfl
    · exact hinv db hold
    · rw [happlied]
      exact hdeliver hprior hok hhead hwire hinv
  · intro _ _ _ _ _ _ _ _ hinv
    exact hinv

/-- The rule for what the database does not lose: what has held of an earlier
state holds of the present one. -/
theorem db_stable (kept : Database → Prop)
    (hdeliver : ∀ {s sender issue}, ReachesUnder world ok now s → ok s (.deliver sender) →
      s.delivered (.deliver sender) = some (sender, issue) → (sender, issue) ∈ s.wire →
      kept s.db → kept (issue.apply s.db))
    (h : ReachesUnder world ok now s) : ∀ db ∈ s.states, kept db → kept s.db := by
  refine net_invariant (fun net => ∀ db ∈ net.states, kept db → kept net.db) (by simp) ?_ ?_ h
  · intro s sender net hprior hok hnet hinv db hdb hkept
    obtain ⟨issue, hhead, _, hwire, happlied⟩ := delivered_eq hnet
    rw [Outbox.Net.deliver_states hnet, List.mem_append, List.mem_singleton] at hdb
    rcases hdb with hold | rfl
    · rw [happlied]
      exact hdeliver hprior hok hhead hwire (hinv db hold hkept)
    · exact hkept
  · intro _ _ _ _ _ _ _ _ hinv
    exact hinv

end System

end Auctioneer
