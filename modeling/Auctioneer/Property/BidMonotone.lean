import Auctioneer.Proof.Records

/-!
The stored price of a product over a run. `Bid_Submit` compares the amount with
the price last delivered to the client, and its write arrives later, so a
lower bid can be applied after a higher one.
-/

namespace Auctioneer

open HomeFeedDetailsViewController

/-- A press of `Bid_Submit` that passes every check. -/
structure AcceptedBid where
  bidder : ClientId
  key : Key
  amount : Price

namespace System

/-- While the product has a price in both states, the price does not fall. -/
def PriceKept (key : Key) (db db' : Database) : Prop :=
  ∀ price ∈ db.highestbidprice key, ∀ price' ∈ db'.highestbidprice key, price ≤ price'

instance (key : Key) : DecidableRel (PriceKept key) := fun db db' =>
  inferInstanceAs (Decidable (∀ price ∈ db.highestbidprice key,
    ∀ price' ∈ db'.highestbidprice key, price ≤ price'))

/-- The price of the product never falls from one state to the next. -/
def PriceAscends (key : Key) (s : System) : Prop := s.states.IsChain (PriceKept key)

variable (world : World) (s : System)

/-- The bid that a press is about to place. -/
def acceptedBid : Label → Option AcceptedBid
  | .act c (.bidSubmit text) => do
      let outcome ← (s.client c).bidOutcome (s.env world c s.now) text
      let target ← (s.client c).bidTarget
      match outcome with
      | some (.bid amount) => some ⟨c, target.1, amount⟩
      | _ => none
  | _ => none

/-- The amount is at least the stored price and every price on its way to the
product, and equal to those that other clients have sent. -/
def BidsOnTop (l : Label) : Prop :=
  ∀ bid ∈ s.acceptedBid world l,
    (∀ stored ∈ s.db.highestbidprice bid.key, stored ≤ bid.amount) ∧
    ∀ sent ∈ s.wire, ∀ queued ∈ sent.2.priceOf bid.key,
      queued ≤ bid.amount ∧ (sent.1 ≠ bid.bidder → queued = bid.amount)

instance (l : Label) : Decidable (s.BidsOnTop world l) :=
  inferInstanceAs (Decidable (∀ bid ∈ s.acceptedBid world l, _ ∧ _))

variable {world s} {now : Date} {key : Key}

/-- A write that gives the product a price sets it. -/
theorem price_assigned {issue : Issue} {db : Database} {price : Price}
    (h : issue.priceOf key = some price) :
    (issue.apply db).highestbidprice key = some price := by
  obtain ⟨write, call⟩ := issue
  cases write with
  | setProductField at' field value =>
      cases field with
      | highestbidprice =>
          cases value with
          | string _ => cases h
          | number new =>
              simp only [Issue.priceOf, Option.ite_none_right_eq_some,
                Option.some.injEq] at h
              obtain ⟨rfl, rfl⟩ := h
              simp [Database.highestbidprice_eq_some, Database.productField, Issue.apply,
                Write.apply, Table.lookup_setField]
      | _ => cases h
  | _ => cases h

/-- The price after a write: the one it gives, the one that was there, or that
of a new product. -/
theorem price_after {issue : Issue} {db : Database} {price : Price}
    (h : (issue.apply db).highestbidprice key = some price) :
    issue.priceOf key = some price ∨ db.highestbidprice key = some price ∨
      issue.creates = some key := by
  rw [Database.highestbidprice_eq_some] at h ⊢
  rcases issue.sets_or_kept db (key, .highestbidprice) _ h with hsets | hkept
  · obtain ⟨write, call⟩ := issue
    cases write with
    | setProduct at' record =>
        obtain ⟨rfl, _⟩ := hsets
        exact .inr (.inr rfl)
    | setProductField at' field value =>
        obtain ⟨hcell, rfl⟩ := hsets
        obtain ⟨rfl, rfl⟩ := Prod.mk.inj hcell
        exact .inl (by simp [Issue.priceOf])
    | _ => cases hsets
  · exact .inr (.inl hkept)

/-- The prices that an event issues are those of an accepted bid. -/
theorem priceOf_of_act (key : Key) {c : ClientId} {action : Action} {client : Client}
    {issues : List Issue}
    (hact : (s.client c).act (s.env world c (action.ends s.now)) action =
      some (.done client issues)) :
    (∀ issue ∈ issues, issue.priceOf key = none) ∨
      ∃ amount bidder, issues = bidIssues key amount bidder ∧
        s.acceptedBid world (.act c action) = some ⟨c, key, amount⟩ := by
  cases Client.act_issues hact with
  | silent => exact .inl (by simp)
  | signUp => exact .inl (by simp [Issue.priceOf])
  | bid text item userName amount hitem huser hopened =>
      by_cases hkey : item.uniqueKey = key
      · subst hkey
        refine .inr ⟨amount, userName, rfl, ?_⟩
        have hopened' : (s.client c).bidOutcome (s.env world c s.now) text =
            some (some (.bid amount)) := hopened
        simp [acceptedBid, hopened', Client.bidTarget, hitem, huser]
      · left
        intro issue hissue
        rcases mem_bidIssues.mp hissue with rfl | rfl
        · simp [Issue.priceOf, priceIssue, hkey]
        · rfl
  | delete => exact .inl (by simp [Issue.priceOf])
  | auction => exact .inl (by simp [Issue.priceOf])
  | task _ _ pending users writes _ _ hwrites =>
      left
      intro issue hissue
      obtain ⟨write, hwrite, rfl⟩ := List.mem_map.mp hissue
      obtain ⟨_, _, _, _, rfl, _⟩ := Client.mem_taskWrites hwrites hwrite
      rfl

/-- While every bid goes on top, no order of delivery lowers the price. -/
theorem prices_ascending (key : Key) (h : ReachesUnder world (BidsOnTop world) now s) :
    Outbox.Ascending (·.highestbidprice key) (Issue.priceOf key) s.net := by
  refine net_invariant (Outbox.Ascending (·.highestbidprice key) (Issue.priceOf key))
    (.of_start _) ?_ ?_ h
  · intro s sender net hprior _ hnet hascending
    refine hascending.deliver hnet ?_ ?_
    · intro issue db price hassigns price' hprice'
      rw [price_assigned hassigns] at hprice'
      exact (Option.some.inj hprice').symm
    · intro issue db price hwire hnone hprice
      rcases price_after hprice with hassigns | hkept | hcreates
      · simp [hnone] at hassigns
      · exact .inl hkept
      · right
        intro sent hsent queued hqueued
        have hkey := Issue.bidKey_of_priceOf hqueued
        exact absurd hcreates (not_creates_of_bidKey hprior hwire hsent hkey)
  · intro s c action client issues _ hok hact hascending
    rcases priceOf_of_act key hact with hnone | ⟨amount, bidder, rfl, hbid⟩
    · refine hascending.issue _ ?_ ?_ ?_
      · intro _ _ issue hissue price hprice
        simp [hnone issue hissue] at hprice
      · intro _ _ issue hissue _ price _ hprice
        simp [hnone issue hissue] at hprice
      · refine List.pairwise_of_forall_mem_list ?_
        intro issue hissue _ _ price _ hprice
        simp [hnone issue hissue] at hprice
    · obtain ⟨hstored, hqueued⟩ := hok _ hbid
      have hamount : ∀ issue ∈ bidIssues key amount bidder, ∀ price,
          issue.priceOf key = some price → price = amount := by
        intro issue hissue price hprice
        rcases mem_bidIssues.mp hissue with rfl | rfl
        · simpa [Issue.priceOf, priceIssue] using hprice.symm
        · cases hprice
      refine hascending.issue _ ?_ ?_ ?_
      · intro stored hread issue hissue price hprice
        obtain rfl := hamount issue hissue price hprice
        exact hstored stored hread
      · intro sent hsent issue hissue queued price hsentPrice hprice
        obtain rfl := hamount issue hissue price hprice
        exact hqueued sent hsent queued hsentPrice
      · refine List.pairwise_of_forall_mem_list ?_
        intro earlier hearlier later hlater price price' hprice hprice'
        rw [hamount earlier hearlier price hprice, hamount later hlater price' hprice']

/-- While every bid goes on top, the price of a product never falls. -/
theorem price_ascends (key : Key) (h : ReachesUnder world (BidsOnTop world) now s) :
    s.PriceAscends key := by
  refine net_invariant (fun net => net.states.IsChain (PriceKept key)) (.singleton _) ?_ ?_ h
  · intro s sender net hprior _ hnet hchain
    refine Outbox.Net.deliver_isChain hnet hchain ?_
    obtain ⟨issue, _, _, hwire, hdb⟩ := delivered_eq hnet
    intro price hprice price' hprice'
    rw [hdb] at hprice'
    rcases price_after hprice' with hassigns | hkept | hcreates
    · have hascending := prices_ascending key hprior
      refine hascending.deliver_le ?_ hwire hassigns hprice hprice'
      intro issue db price hassigns price' hread
      rw [price_assigned hassigns] at hread
      exact (Option.some.inj hread).symm
    · exact (Option.some.inj (hprice.symm.trans hkept)).le
    · have hstored := Database.highestbidprice_eq_some.mp hprice
      exact absurd hcreates (not_creates_of_productField hprior hwire hstored)
  · intro _ _ _ _ _ _ _ _ hchain
    exact hchain

/-- Bob bids after the bid of Amy has arrived. -/
def bidsInTurn : List Label :=
  Scenario.lampBid "20" ++ Scenario.openFirst 2 6 ++
    [.act 2 (.bidSubmit "25"), .deliver 2, .deliver 2]

theorem price_ascends_in_turn :
    ∃ s, ReachesUnder Scenario.world (BidsOnTop Scenario.world) Scenario.opening s ∧
      s.db.highestbidprice Scenario.lamp = some 25 ∧ s.PriceAscends Scenario.lamp := by
  obtain ⟨s, hreach, hprice⟩ : ∃ s, ReachesUnder Scenario.world (BidsOnTop Scenario.world)
      Scenario.opening s ∧ s.db.highestbidprice Scenario.lamp = some 25 :=
    Machine.exists_reaches bidsInTurn (by decide +kernel) (by decide +kernel)
  exact ⟨s, hreach, hprice, price_ascends _ hreach⟩

/-- Bob's screen still shows no bid when he bids 15 after Amy has bid 20. -/
def staleBid : List Label :=
  Scenario.lampOpened ++ Scenario.openFirst 1 4 ++ Scenario.openFirst 2 4 ++
    [.act 1 (.bidSubmit "20"), .deliver 1, .deliver 1, .act 2 (.bidSubmit "15"), .deliver 2]

theorem not_price_ascends :
    ¬ ∀ (world : World) (now : Date) (s : System) (key : Key), Reachable world now s →
      s.PriceAscends key := by
  intro hascends
  obtain ⟨s, hreach, hfalls⟩ : ∃ s, Reachable Scenario.world Scenario.opening s ∧
      ¬ s.states.IsChain (PriceKept Scenario.lamp) :=
    Machine.exists_reachable staleBid (by decide +kernel)
  exact hfalls (hascends _ _ s Scenario.lamp hreach)

end System

end Auctioneer
