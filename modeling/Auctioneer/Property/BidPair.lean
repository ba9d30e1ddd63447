import Auctioneer.Proof.Bids

/-!
The stored price and bidder of a product. An accepted bid writes them one after
the other, and a write of another client can be applied in between.
-/

namespace Auctioneer

open HomeFeedDetailsViewController

namespace System

/-- With no write on its way, the stored price and bidder are the initial ones
or those of one bid. -/
def PairFromOneBid (key : Key) (s : System) : Prop :=
  s.wire = [] → ∀ price ∈ s.db.highestbidprice key, ∀ bidder ∈ s.db.highestbidder key,
    (price = 0 ∧ bidder = "-") ∨
      ∃ issue ∈ s.net.issued, issue.call = .bidSubmit key price bidder

/-- A write of a bid is applied only when no other client has a bid on the same
product half applied, its bidder being the next write to arrive. -/
def BidsApart (s : System) (l : Label) : Prop :=
  ∀ sent ∈ s.delivered l, ∀ key ∈ sent.2.bidKey, ∀ other ∈ s.wire, other.1 ≠ sent.1 →
    ∀ next ∈ (s.net.outbox other.1).head?, next.bidderOf key = none

instance (s : System) (l : Label) : Decidable (s.BidsApart l) :=
  inferInstanceAs (Decidable (∀ sent ∈ s.delivered l, _))

/-- The stored pair, if there is one, is the initial one or that of a bid. -/
def PairSound (key : Key) (net : Outbox.Net ClientId Issue Database) : Prop :=
  ∀ price bidder, net.db.highestbidprice key = some price →
    net.db.highestbidder key = some bidder →
    (price = 0 ∧ bidder = "-") ∨
      ∃ issue ∈ net.issued, issue.call = .bidSubmit key price bidder

/-- The price of the bid is stored, unless the product is gone. -/
def PriceStored (key : Key) (net : Outbox.Net ClientId Issue Database)
    (bid : Price × String) : Prop :=
  ∀ price, net.db.highestbidprice key = some price → price = bid.1

variable {world : World} {now : Date} {s : System} {key : Key}

section Deliver

variable {ok : System → Label → Prop} {sender : ClientId} {issue : Issue}
  {net : Outbox.Net ClientId Issue Database}

/-- Neither a creation nor a write outside the product spoils its pair. -/
theorem pairSound_unrelated (h : ReachesUnder world ok now s)
    (hwire : (sender, issue) ∈ s.wire) (hnone : issue.bidHalf key = none)
    (hdb : net.db = issue.apply s.db) (hissued : net.issued = s.net.issued)
    (hsound : PairSound key s.net) : PairSound key net := by
  have hbacked := issue_backed h issue ((honest h).mem_issued hwire)
  intro price bidder hprice hbidder
  rw [hdb, Database.highestbidprice_eq_some] at hprice
  rw [hdb, Database.highestbidder_eq_some] at hbidder
  rw [hissued]
  rcases hbacked.unrelated hnone (.inl rfl) hprice with hprice | ⟨hcreates, hsets⟩
  · rcases hbacked.unrelated hnone (.inr rfl) hbidder with hbidder | ⟨hcreates, _⟩
    · exact hsound price bidder (Database.highestbidprice_eq_some.mpr hprice)
        (Database.highestbidder_eq_some.mpr hbidder)
    · exact absurd hcreates (not_creates_of_productField h hwire hprice)
  · rcases hbacked.unrelated hnone (.inr rfl) hbidder with hbidder | ⟨_, hsets'⟩
    · exact absurd hcreates (not_creates_of_productField h hwire hbidder)
    · left
      cases hbacked with
      | auction =>
          obtain ⟨_, hzero⟩ := hsets
          obtain ⟨_, hnobody⟩ := hsets'
          exact ⟨(Value.number.inj (Option.some.inj hzero)).symm,
            (Value.string.inj (Option.some.inj hnobody)).symm⟩
      | bid _ item amount bidder _ _ _ _ hbid =>
          rcases mem_bidIssues.mp hbid with rfl | rfl <;> cases hcreates
      | _ => cases hsets

theorem priceStored_unrelated (h : ReachesUnder world ok now s)
    (hwire : (sender, issue) ∈ s.wire) (hnone : issue.bidHalf key = none)
    (hdb : net.db = issue.apply s.db) {sender' : ClientId} {issue' : Issue}
    (hwire' : (sender', issue') ∈ s.wire) (hkey : issue'.bidKey = some key)
    {bid : Price × String} (hstored : PriceStored key s.net bid) : PriceStored key net bid := by
  have hbacked := issue_backed h issue ((honest h).mem_issued hwire)
  intro price hprice
  rw [hdb, Database.highestbidprice_eq_some] at hprice
  rcases hbacked.unrelated hnone (.inl rfl) hprice with hprice | ⟨hcreates, _⟩
  · exact hstored price (Database.highestbidprice_eq_some.mpr hprice)
  · exact absurd hcreates (not_creates_of_bidKey h hwire hwire' hkey)

theorem priceStored_of_price {u : Price × String} {db : Database}
    (hdb : net.db = (priceIssue key u.1 u.2).apply db) : PriceStored key net u := by
  intro price hprice
  rw [hdb, highestbidprice_priceIssue] at hprice
  exact (Option.some.inj hprice).symm

theorem pairSound_of_bidder {u : Price × String}
    (hissued : bidderIssue key u.1 u.2 ∈ net.issued)
    (hdb : net.db = (bidderIssue key u.1 u.2).apply s.db)
    (hstored : PriceStored key s.net u) : PairSound key net := by
  intro price bidder hprice hbidder
  right
  rw [hdb, Database.highestbidprice_eq_some] at hprice
  rw [hdb, highestbidder_bidderIssue] at hbidder
  obtain rfl : u.2 = bidder := Option.some.inj hbidder
  rcases Issue.sets_or_kept _ s.db (key, .highestbidprice) _ hprice with hsets | hkept
  · obtain ⟨hcell, _⟩ := hsets
    cases (Prod.mk.inj hcell).2
  · obtain rfl := hstored price (Database.highestbidprice_eq_some.mpr hkept)
    exact ⟨_, hissued, rfl⟩

end Deliver

/-- While bids are applied apart, at most one client has a bid on the product
half applied. -/
theorem bids_two_step (key : Key) (h : ReachesUnder world BidsApart now s) :
    Outbox.TwoStep (Issue.bidHalf key) (PairSound key s.net) (PriceStored key s.net) s.net := by
  refine net_invariant (fun net => Outbox.TwoStep (Issue.bidHalf key) (PairSound key net)
    (PriceStored key net) net) (.of_start ?_) ?_ ?_ h
  · intro price bidder hprice
    cases hprice
  · intro s sender net hprior hok hnet htwoStep
    have hbacked : ∀ {c issue}, (c, issue) ∈ s.wire → issue.Backed world s.states :=
      fun hwire => issue_backed hprior _ ((honest hprior).mem_issued hwire)
    have hissued := Outbox.Net.deliver_issued hnet
    refine htwoStep.deliver hnet ?_ ?_ ?_ ?_
    · rintro issue hwire hhalf hhead other hne u ⟨next, hnext, hsecond⟩
      have hmem : (other, next) ∈ s.wire :=
        (Outbox.Net.mem_outbox _ other).mp (List.mem_of_head? hnext)
      have hkey : issue.bidKey = some key := (hbacked hwire).bidKey_of_bidHalf hhalf
      have hdelivered : s.delivered (.deliver sender) = some (sender, issue) := by
        simpa [delivered] using hhead
      have hapart := hok (sender, issue) hdelivered key hkey (other, next) hmem hne next hnext
      rw [(hbacked hmem).eq_of_second hsecond] at hapart
      simp [Issue.bidderOf, bidderIssue] at hapart
    · intro issue hwire hdb hnone
      refine ⟨pairSound_unrelated hprior hwire hnone hdb hissued, ?_⟩
      intro sender' issue' u hwire' hsecond
      have hkey : issue'.bidKey = some key := by
        rw [(hbacked hwire').eq_of_second hsecond]
        rfl
      exact priceStored_unrelated hprior hwire hnone hdb hwire' hkey
    · intro issue u hwire hdb hfirst
      rw [(hbacked hwire).eq_of_first hfirst] at hdb
      exact priceStored_of_price hdb
    · intro issue u hwire hdb hsecond
      have heq := (hbacked hwire).eq_of_second hsecond
      rw [heq] at hdb hwire
      refine pairSound_of_bidder ?_ hdb
      rw [hissued]
      exact (honest hprior).mem_issued hwire
  · intro s c action client issues _ _ hact htwoStep
    refine htwoStep.issue (whole_of_act hact) ?_ ?_
    · intro hsound price bidder hprice hbidder
      rcases hsound price bidder hprice hbidder with hinitial | ⟨issue, hissue, hcall⟩
      · exact .inl hinitial
      · exact .inr ⟨issue, by simp [hissue], hcall⟩
    · intro u hstored
      exact hstored

/-- While bids are applied apart, the stored pair is that of one bid whenever
no write is on its way. -/
theorem pair_from_one_bid (key : Key) (h : ReachesUnder world BidsApart now s) :
    s.PairFromOneBid key := by
  intro hquiet price hprice bidder hbidder
  refine (bids_two_step key h).whole ?_ price bidder hprice hbidder
  rintro c u ⟨issue, hhead, _⟩
  have hmem := (Outbox.Net.mem_outbox _ c).mp (List.mem_of_head? hhead)
  rw [show s.net.wire = [] from hquiet] at hmem
  cases hmem

/-- The two bids are pressed at once, and the writes of Amy arrive before those
of Bob. -/
def bidsApart : List Label :=
  Scenario.lampOpened ++ Scenario.openFirst 1 4 ++ Scenario.openFirst 2 4 ++
    [.act 1 (.bidSubmit "20"), .act 2 (.bidSubmit "25"), .deliver 1, .deliver 1,
      .deliver 2, .deliver 2]

theorem pair_from_one_bid_apart :
    ∃ s, ReachesUnder Scenario.world BidsApart Scenario.opening s ∧
      (s.wire = [] ∧ s.db.highestbidprice Scenario.lamp = some 25 ∧
        s.db.highestbidder Scenario.lamp = some "bob") ∧
      s.PairFromOneBid Scenario.lamp := by
  obtain ⟨s, hreach, hquiet, hprice, hbidder⟩ : ∃ s, ReachesUnder Scenario.world BidsApart
      Scenario.opening s ∧ s.wire.isEmpty = true ∧
      s.db.highestbidprice Scenario.lamp = some 25 ∧
      s.db.highestbidder Scenario.lamp = some "bob" :=
    Machine.exists_reaches bidsApart (by decide +kernel) (by decide +kernel)
  exact ⟨s, hreach, ⟨List.isEmpty_iff.mp hquiet, hprice, hbidder⟩,
    pair_from_one_bid _ hreach⟩

/-- The price of Bob arrives between the price and the bidder of Amy, and his
bidder before hers. -/
def bidsMixed : List Label :=
  Scenario.lampOpened ++ Scenario.openFirst 1 4 ++ Scenario.openFirst 2 4 ++
    [.act 1 (.bidSubmit "20"), .act 2 (.bidSubmit "25"), .deliver 1, .deliver 2,
      .deliver 2, .deliver 1]

theorem not_pair_from_one_bid :
    ¬ ∀ (world : World) (now : Date) (s : System) (key : Key), Reachable world now s →
      s.PairFromOneBid key := by
  intro hpair
  obtain ⟨s, hreach, hquiet, hprice, hbidder, hcalls⟩ :
      ∃ s, Reachable Scenario.world Scenario.opening s ∧ s.wire.isEmpty = true ∧
        s.db.highestbidprice Scenario.lamp = some 25 ∧
        s.db.highestbidder Scenario.lamp = some "amy" ∧
        ∀ issue ∈ s.net.issued, issue.call ≠ .bidSubmit Scenario.lamp 25 "amy" :=
    Machine.exists_reachable bidsMixed (by decide +kernel)
  rcases hpair _ _ s Scenario.lamp hreach (List.isEmpty_iff.mp hquiet) 25 hprice "amy" hbidder
    with ⟨hzero, _⟩ | ⟨issue, hissue, hcall⟩
  · exact absurd hzero (by decide)
  · exact hcalls issue hissue hcall

end System

end Auctioneer
