import Auctioneer.Proof.Records

/-!
The check of `Bid_Submit` that a seller does not bid: it looks at the item that
is selected, and the bid is on the product of that item.
-/

namespace Auctioneer

namespace System

/-- No `highestbidder` value written under a key is the name that opened the
auction under it. -/
def NoShillBids (s : System) : Prop :=
  ∀ issue ∈ s.net.issued, ∀ key value,
    issue.write = .setProductField key .highestbidder value →
    (∃ record, s.Created key record) ∧
      ∀ record, s.Created key record →
        ∃ opener, record .openby = some (.string opener) ∧ value ≠ .string opener

/-- The product that a bidder is written to has had a seller of another name. -/
def BidByAnother (dbs : List Database) (issue : Issue) : Prop :=
  ∀ key value, issue.write = .setProductField key .highestbidder value →
    ∃ db ∈ dbs, ∃ opener, db.productField key .openby = some (.string opener) ∧
      value ≠ .string opener

variable {world : World} {ok : System → Label → Prop} {now : Date} {s : System}

/-- The selected item is of the product bid on, and it names the seller. -/
theorem bidByAnother_of_act (h : ReachesUnder world ok now s) {c : ClientId} {action : Action}
    {client : Client} {issues : List Issue}
    (hact : (s.client c).act (s.env world c (action.ends s.now)) action =
      some (.done client issues)) :
    ∀ issue ∈ issues, BidByAnother s.states issue := by
  intro issue hissue key value hwrite
  obtain ⟨item, userName, amount, hitem, huser, hother, _, rfl⟩ :=
    Client.act_bidder hact hissue hwrite
  obtain ⟨rfl, _, rfl⟩ := Write.setProductField.inj hwrite
  obtain ⟨db, hdb, record, hrecord, hdescribes⟩ :=
    item_sourced h c item (Client.selectedItem_mem hitem)
  refine ⟨db, hdb, item.openedBy, ?_, ?_⟩
  · exact Database.productField_eq_some.mpr ⟨record, hrecord, hdescribes.openby⟩
  · intro heq
    exact hother (Value.string.inj heq).symm

theorem bidByAnother (h : ReachesUnder world ok now s) :
    ∀ issue ∈ s.net.issued, BidByAnother s.states issue := by
  refine issue_invariant BidByAnother ?_ ?_ h
  · intro dbs dbs' issue hsub hinv key value hwrite
    obtain ⟨db, hdb, hopener⟩ := hinv key value hwrite
    exact ⟨db, hsub hdb, hopener⟩
  · intro s c action client issues hprior _ hact
    exact bidByAnother_of_act hprior hact

/-- In every run no seller bids on an own product. -/
theorem no_shill_bids (h : Reachable world now s) : s.NoShillBids := by
  intro issue hissue key value hwrite
  obtain ⟨db, hdb, opener, hopener, hne⟩ := bidByAnother h issue hissue key value hwrite
  obtain ⟨record, hrecord, hfield⟩ := field_created h hdb (by simp) (by simp) hopener
  refine ⟨⟨record, hrecord⟩, ?_⟩
  intro record' hrecord'
  obtain rfl := created_unique h hrecord hrecord'
  exact ⟨opener, hfield, hne⟩

theorem no_shill_bids_of_amy :
    ∃ s, Reachable Scenario.world Scenario.opening s ∧
      s.db.highestbidder Scenario.lamp = some "amy" ∧ s.NoShillBids := by
  obtain ⟨s, hreach, hbidder⟩ : ∃ s, Reachable Scenario.world Scenario.opening s ∧
      s.db.highestbidder Scenario.lamp = some "amy" :=
    Machine.exists_reachable (Scenario.lampBid "20") (by decide +kernel)
  exact ⟨s, hreach, hbidder, no_shill_bids hreach⟩

end System

end Auctioneer
