import Auctioneer.Proof.Records

/-!
The outcome of a closed auction. The closing date is checked when a bid is
pressed, by which it stops every press after it; nothing checks it when the two
writes are applied.
-/

namespace Auctioneer

namespace System

/-- The database, at a moment after the product's closing date, puts the item
in the Won list of the user. -/
structure Won (zone : TimeZone) (s : System) (userName : String) (item : AuctionItem) :
    Prop where
  closed : item.closeDate < s.now
  listed : ∃ items, AuctionWonViewController.retrieveData zone s.now (some userName) s.db =
    some items ∧ item ∈ items

/-- From `s` to `s'` the winner and the price of the item stand, or the product
is deleted on the way. -/
def Stands (s s' : System) (userName : String) (item : AuctionItem) : Prop :=
  ∃ later, s'.states = s.states ++ later ∧
    ((∃ db ∈ later, db.products.lookup item.uniqueKey = none) ∨
      (s'.db.highestbidprice item.uniqueKey = some item.highestBidPrice ∧
        s'.db.highestbidder item.uniqueKey = some userName))

/-- No bid on the product is on its way. -/
def NoBidOn (s : System) (key : Key) : Prop := ∀ sent ∈ s.wire, sent.2.bidKey ≠ some key

instance (s : System) (key : Key) : Decidable (s.NoBidOn key) :=
  inferInstanceAs (Decidable (∀ sent ∈ s.wire, _))

variable {zone : TimeZone} {world : World} {now : Date} {s s' : System} {l : Label}
  {userName : String} {item : AuctionItem}

/-- What the record of a won product holds, and that its auction has ended. -/
theorem Won.record (hwon : s.Won zone userName item) (h : Reachable world now s) :
    ∃ record, s.db.products.lookup item.uniqueKey = some record ∧
      item.Describes zone record ∧ item.Ended s.now ∧
      record .highestbidprice = some (.number item.highestBidPrice) ∧
      record .highestbidder = some (.string userName) := by
  obtain ⟨items, hitems, hitem⟩ := hwon.listed
  obtain ⟨⟨dictionary, hdictionary, hmem⟩, huser, hnotOpen⟩ :=
    AuctionWonViewController.mem_of_retrieveData hitems hitem
  obtain ⟨record, hrecord, hread⟩ := exists_of_mem_decodeProducts hdictionary hmem
  obtain ⟨value, hvalue, hdescribed⟩ := hread.highestbidprice
  obtain ⟨price, rfl, _⟩ := price_origin h (Outbox.Net.db_mem_states _)
    (Database.productField_eq_some.mpr ⟨record, hrecord, hvalue⟩)
  obtain rfl := Option.some.inj hdescribed
  rw [hread.isnotClosed] at hnotOpen
  have hbegun : min item.openDate item.closeDate ≤ s.now :=
    (min_le_right _ _).trans hwon.closed.le
  refine ⟨record, hrecord, hread.toDescribes, ?_, hvalue, ?_⟩
  · exact AuctionItem.ended_of_not_isBetween hbegun hnotOpen
  · rw [hread.highestbidder, Option.some.inj huser]

/-- A press of Bid that is taken is on a product whose auction has not ended,
which all clients that share a zone and a clock read alike. -/
theorem bidKey_ne_of_act (h : Reachable (World.sharing zone) now s)
    (hsourced : item.Sourced zone s.states) (hended : item.Ended s.now) {c : ClientId}
    {action : Action} {client : Client} {issues : List Issue}
    (hact : (s.client c).act (s.env (World.sharing zone) c (action.ends s.now)) action =
      some (.done client issues)) : ∀ issue ∈ issues, issue.bidKey ≠ some item.uniqueKey := by
  intro issue hissue hkey
  cases Client.act_issues hact with
  | bid text selected bidder amount hselected huser hopened =>
      have hopen : Date.isBetween s.now selected.openDate selected.closeDate = true :=
        (Client.bidOutcome_bid hselected huser hopened).2.1
      have hheld := item_sourced h c selected (Client.selectedItem_mem hselected)
      have hsame : selected.uniqueKey = item.uniqueKey := by
        rcases HomeFeedDetailsViewController.mem_bidIssues.mp hissue with rfl | rfl <;>
          exact Option.some.inj hkey
      obtain ⟨hopenDate, hcloseDate⟩ := dates_eq h hsourced hheld hsame
      rw [hopenDate, hcloseDate] at hopen
      exact hended.not_isBetween hopen
  | silent => cases hissue
  | task _ _ pending users writes _ _ hwrites =>
      obtain ⟨write, hwrite, rfl⟩ := List.mem_map.mp hissue
      obtain ⟨_, _, _, _, rfl, _⟩ := Client.mem_taskWrites hwrites hwrite
      cases hkey
  | _ =>
      obtain rfl := List.mem_singleton.mp hissue
      cases hkey

/-- Once the auction has ended, no bid on the product gets on its way. -/
theorem NoBidOn.step (h : Reachable (World.sharing zone) now s)
    (hsourced : item.Sourced zone s.states) (hended : item.Ended s.now)
    (hquiet : s.NoBidOn item.uniqueKey) (htaken : s.step (World.sharing zone) l = some s') :
    s'.NoBidOn item.uniqueKey := by
  rcases step_net htaken with ⟨hnet, _⟩ | ⟨_, _, hnet, _⟩ | ⟨c, action, client, issues, _,
    hact, hnet, _⟩
  · rwa [NoBidOn, wire, hnet]
  · exact fun sent hsent => hquiet sent ((Outbox.Net.deliver_wire_sublist hnet).subset hsent)
  · intro sent hsent
    rw [wire, hnet, Outbox.Net.issue_wire, List.mem_append] at hsent
    rcases hsent with hold | hnew
    · exact hquiet sent hold
    · obtain ⟨issue, hissue, rfl⟩ := List.mem_map.mp hnew
      exact bidKey_ne_of_act h hsourced hended hact issue hissue

/-- A write other than a bid on the product keeps its record or removes it. -/
theorem record_kept {issue : Issue} {db : Database} {key : Key} {record : ProductRecord}
    (hrecord : db.products.lookup key = some record) (hcreates : issue.creates ≠ some key)
    (hbid : issue.bidKey ≠ some key) :
    (issue.apply db).products.lookup key = some record ∨
      (issue.apply db).products.lookup key = none := by
  obtain ⟨write, call⟩ := issue
  cases write with
  | setProduct created _ =>
      have hne : key ≠ created := fun heq => hcreates (by rw [heq]; rfl)
      exact .inl (by simpa [Issue.apply, Write.apply, Table.lookup_insert', hne])
  | setProductField bidOn _ _ =>
      have hne : key ≠ bidOn := fun heq => hbid (by rw [heq]; rfl)
      exact .inl (by simpa [Issue.apply, Write.apply, Table.lookup_setField, hne])
  | removeProduct removed =>
      by_cases heq : key = removed
      · exact .inr (by simp [Issue.apply, Write.apply, Table.lookup_erase', heq])
      · exact .inl (by simpa [Issue.apply, Write.apply, Table.lookup_erase', heq])
  | setUser => exact .inl hrecord
  | updateUser => exact .inl hrecord

/-- A delivery that brings no bid on the product keeps its record or removes it. -/
theorem record_kept_deliver (h : Reachable world now s) {key : Key} {record : ProductRecord}
    (hrecord : s.db.products.lookup key = some record) (hquiet : s.NoBidOn key)
    {sender : ClientId} {net : Outbox.Net ClientId Issue Database}
    (hnet : s.net.deliver sender Issue.apply = some net) :
    net.db.products.lookup key = some record ∨ net.db.products.lookup key = none := by
  obtain ⟨issue, _, _, hwire, hdb⟩ := delivered_eq hnet
  have hholds : s.net.db.Holds key := .inl (by rw [show s.net.db = s.db from rfl, hrecord]; rfl)
  have hcreates : issue.creates ≠ some key := fun hcreates =>
    (keyed h).pending _ hwire key hcreates _ (Outbox.Net.db_mem_states _) hholds
  rw [hdb]
  exact record_kept hrecord hcreates (hquiet _ hwire)

/-- The record of a product whose auction has ended with no bid on its way stays
as it is until the product is deleted. -/
theorem record_final (h : Reachable (World.sharing zone) now s) {record : ProductRecord}
    (hrecord : s.db.products.lookup item.uniqueKey = some record)
    (hshows : item.Describes zone record) (hended : item.Ended s.now)
    (hquiet : s.NoBidOn item.uniqueKey)
    (hlater : Machine.Reachable (System.step (World.sharing zone)) s s') :
    item.Ended s'.now ∧ s'.NoBidOn item.uniqueKey ∧ ∃ later, s'.states = s.states ++ later ∧
      ((∃ db ∈ later, db.products.lookup item.uniqueKey = none) ∨
        s'.db.products.lookup item.uniqueKey = some record) := by
  induction hlater with
  | refl => exact ⟨hended, hquiet, [], by simp, .inr hrecord⟩
  | @step mid last l hmid _ htaken ih =>
      have hreach : Reachable (World.sharing zone) now mid := h.trans hmid
      obtain ⟨hended', hquiet', later, hstates, hrest⟩ := ih
      have hsourced : item.Sourced zone mid.states :=
        ⟨s.db, hstates ▸ List.mem_append_left _ (Outbox.Net.db_mem_states _), record, hrecord,
          hshows⟩
      refine ⟨hended'.mono (time_le htaken),
        NoBidOn.step hreach hsourced hended' hquiet' htaken, ?_⟩
      rcases step_net htaken with ⟨hnet, _⟩ | ⟨sender, _, hnet, _⟩ |
        ⟨_, _, _, _, _, _, hnet, _⟩
      · exact ⟨later, by rw [← hstates, states, hnet], by simpa only [System.db, hnet] using hrest⟩
      · refine ⟨later ++ [last.db], ?_, ?_⟩
        · rw [states, Outbox.Net.deliver_states hnet, ← List.append_assoc, ← hstates]
        · rcases hrest with ⟨deleted, hdeleted, hnone⟩ | hkept
          · exact .inl ⟨deleted, List.mem_append_left _ hdeleted, hnone⟩
          · rcases record_kept_deliver hreach hkept hquiet' hnet with hsame | hgone
            · exact .inr hsame
            · exact .inl ⟨last.db, by simp, hgone⟩
      · exact ⟨later, by rw [← hstates, states, hnet, Outbox.Net.issue_states],
          by simpa only [System.db, hnet, Outbox.Net.issue_db] using hrest⟩

/-- Where no bid on the product is on its way when its winner is declared, the
winner is final: the closing date stops every later press. -/
theorem winner_stands (h : Reachable (World.sharing zone) now s)
    (hwon : s.Won zone userName item) (hquiet : s.NoBidOn item.uniqueKey)
    (hlater : Machine.Reachable (System.step (World.sharing zone)) s s') :
    s.Stands s' userName item := by
  obtain ⟨record, hrecord, hshows, hended, hprice, hbidder⟩ := hwon.record h
  obtain ⟨_, _, later, hstates, hrest⟩ :=
    record_final h hrecord hshows hended hquiet hlater
  refine ⟨later, hstates, ?_⟩
  rcases hrest with hdeleted | hkept
  · exact .inl hdeleted
  · have hstoredPrice := Database.productField_eq_some.mpr ⟨record, hkept, hprice⟩
    have hstoredBidder := Database.productField_eq_some.mpr ⟨record, hkept, hbidder⟩
    exact .inr ⟨Database.highestbidprice_eq_some.mpr hstoredPrice,
      Database.highestbidder_eq_some.mpr hstoredBidder⟩

/-- Amy's bid on the lamp has arrived, another of hers on the desk is on its way,
Bob has opened the lamp, and both auctions are over. -/
def lampSold : List Label :=
  Scenario.deskOpened ++
    [.act 1 (.productsEvent 0 5), .act 1 (.selectRow 1), .act 1 (.detailsEvent 0 5),
      .act 1 (.bidSubmit "20"), .deliver 1, .deliver 1, .act 1 .popDetails,
      .act 1 (.selectRow 0), .act 1 (.detailsEvent 1 5), .act 1 (.bidSubmit "60"),
      .act 2 (.productsEvent 0 5), .act 2 (.selectRow 1), .act 2 (.detailsEvent 0 5),
      .tick (Scenario.closing + 60)]

/-- Bob presses a bid on the lamp, which is refused, and Amy's on the desk arrives. -/
def lampBidLate : List Label := [.act 2 (.bidSubmit "25"), .deliver 1, .deliver 1]

theorem winner_stands_of_amy :
    ∃ (s s' : System) (item : AuctionItem), Reachable Scenario.world Scenario.opening s ∧
      s.Won (TimeZone.fixed 480) "amy" item ∧ item.uniqueKey = Scenario.lamp ∧
      s.states.length + 2 = s'.states.length ∧
      s.Stands s' "amy" item := by
  obtain ⟨s, hreach, ⟨items, hitems, item, hitem, hclosed, hkey⟩, hquiet, s', hrun, hlonger⟩ :
      ∃ s, Reachable Scenario.world Scenario.opening s ∧
        (∃ items ∈ AuctionWonViewController.retrieveData (TimeZone.fixed 480) s.now
          (some "amy") s.db, ∃ item ∈ items,
            item.closeDate < s.now ∧ item.uniqueKey = Scenario.lamp) ∧
        s.NoBidOn Scenario.lamp ∧
        ∃ s' ∈ Machine.run (System.step Scenario.world) s lampBidLate,
          s.states.length + 2 = s'.states.length :=
    Machine.exists_reachable lampSold (by decide +kernel)
  have hwon : s.Won (TimeZone.fixed 480) "amy" item := ⟨hclosed, items, hitems, hitem⟩
  exact ⟨s, s', item, hreach, hwon, hkey, hlonger,
    winner_stands hreach hwon (hkey ▸ hquiet) (Machine.reachable_of_run lampBidLate hrun)⟩

/-- Bob has pressed before the closing date as well, and his price arrives
after the snapshot that names Amy. -/
def lampSoldEarly : List Label :=
  Scenario.lampOpened ++ Scenario.openFirst 1 4 ++ Scenario.openFirst 2 4 ++
    [.act 1 (.bidSubmit "20"), .deliver 1, .deliver 1, .act 2 (.bidSubmit "25"),
      .tick (Scenario.closing + 60)]

theorem not_winner_stands :
    ¬ ∀ (zone : TimeZone) (now : Date) (s s' : System) (userName : String)
      (item : AuctionItem), Reachable (World.sharing zone) now s →
      s.Won zone userName item →
      Machine.Reachable (System.step (World.sharing zone)) s s' →
      s.Stands s' userName item := by
  intro hstands
  obtain ⟨s, hreach, ⟨items, hitems, item, hitem, hclosed, hkey, hprice⟩, s', hrun, hraised,
      hthere⟩ :
      ∃ s, Reachable Scenario.world Scenario.opening s ∧
        (∃ items ∈ AuctionWonViewController.retrieveData (TimeZone.fixed 480) s.now
          (some "amy") s.db, ∃ item ∈ items, item.closeDate < s.now ∧
            item.uniqueKey = Scenario.lamp ∧ item.highestBidPrice = 20) ∧
        ∃ s' ∈ Machine.run (System.step Scenario.world) s [.deliver 2],
          s'.db.highestbidprice Scenario.lamp = some 25 ∧
          ∀ db ∈ s'.states.drop s.states.length,
            (db.products.lookup Scenario.lamp).isSome :=
    Machine.exists_reachable lampSoldEarly (by decide +kernel)
  obtain ⟨later, hstates, hend⟩ := hstands _ _ s s' "amy" item hreach
    ⟨hclosed, items, hitems, hitem⟩ (Machine.reachable_of_run [.deliver 2] hrun)
  rw [hkey, hprice] at hend
  rcases hend with ⟨db, hdb, hnone⟩ | ⟨hkept, _⟩
  · have hsome := hthere db (by rw [hstates, List.drop_left]; exact hdb)
    rw [hnone] at hsome
    cases hsome
  · rw [hraised] at hkept
    exact absurd hkept (by decide)

end System

end Auctioneer
