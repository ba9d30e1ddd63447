import Auctioneer.Proof.Records
import Auctioneer.Proof.Screens

/-!
What `Delete_Listing` removes. The details screen in the Listings tab is built
for one product; the press removes the product of the item selected then, and
the other tabs select items too.
-/

namespace Auctioneer

/-- The product has been opened by the user. -/
def OpenedBy (dbs : List Database) (key : Key) (user : String) : Prop :=
  ∃ db ∈ dbs, db.productField key .openby = some (.string user)

theorem OpenedBy.mono {dbs dbs' : List Database} {key : Key} {user : String}
    (hsub : dbs ⊆ dbs') (h : OpenedBy dbs key user) : OpenedBy dbs' key user := by
  obtain ⟨db, hdb, hopenby⟩ := h
  exact ⟨db, hsub hdb, hopenby⟩

theorem AuctionItem.Sourced.openedBy {zone : TimeZone} {dbs : List Database}
    {item : AuctionItem} (h : item.Sourced zone dbs) :
    OpenedBy dbs item.uniqueKey item.openedBy := by
  obtain ⟨db, hdb, record, hrecord, hdescribes⟩ := h
  exact ⟨db, hdb, Database.productField_eq_some.mpr ⟨record, hrecord, hdescribes.openby⟩⟩

namespace Client

/-- The rows of a Listings screen are of the signed-in user. -/
def ListsOwn (client : Client) (screen : Nat) : Prop :=
  ∃ list, client.listScreens[screen]? = some list ∧ list.kind = .yourListing ∧
    ∀ ref ∈ list.auctionItemList, ∃ item, client.heap[ref]? = some item ∧
      client.signedInUserName = some item.openedBy

/-- The Listings tab shows products of the signed-in user: in its list, and on
its details screen. -/
structure ListingsOwn (dbs : List Database) (client : Client) : Prop where
  rows : ∀ bar, client.tabBar = some bar → ∀ screen, bar.yourListing = some screen →
    client.ListsOwn screen
  details : ∀ bar, client.tabBar = some bar → ∀ shown, bar.yourListingsDetails = some shown →
    ∃ user, client.signedInUserName = some user ∧ OpenedBy dbs shown user

variable {env : Env} {client client' : Client} {action : Action} {issues : List Issue}

/-- The rows of a Listings screen stay those of the signed-in user. -/
theorem ListsOwn.act {screen : Nat} (h : client.ListsOwn screen)
    (hact : client.act env action = some (.done client' issues))
    (hsession : client'.signedInUserName = client.signedInUserName) :
    client'.ListsOwn screen := by
  have howned : client.Lists .yourListing
      (fun item => client.signedInUserName = some item.openedBy) screen := h
  refine howned.act hact (fun item price howner => hsession.trans howner) ?_
  intro db _ items hitems item hitem
  exact hsession.trans (YourListingViewController.mem_of_retrieveData hitems hitem).2

end Client

namespace System

/-- A removal that is delivered for a press of Delete on the screen built for
`shown` removes that product and no other, and the record it removes was opened
by the user who pressed. -/
def DeletesOwn (s : System) (l : Label) (s' : System) : Prop :=
  ∀ sent ∈ s.delivered l, ∀ shown author, sent.2.call = .deleteListing shown author →
    s'.db.products.lookup shown = none ∧
    (∀ other ≠ shown, s'.db.products.lookup other = s.db.products.lookup other) ∧
    ∀ record ∈ s.db.products.lookup shown,
      ∃ user, author = some user ∧ record .openby = some (.string user)

/-- The product of the screen on which Delete is pressed, and the item that is
selected then. -/
def deletePress (s : System) : Label → Option (Key × AuctionItem)
  | .act c .deleteListing => do
      let bar ← (s.client c).tabBar
      let shown ← bar.yourListingsDetails
      let item ← (s.client c).selectedItem
      some (shown, item)
  | _ => none

/-- Delete is pressed while the row tapped last, in whatever tab, is of the
product that the screen shows. -/
def PressesShown (s : System) (l : Label) : Prop :=
  ∀ press ∈ s.deletePress l, press.2.uniqueKey = press.1

instance (s : System) (l : Label) : Decidable (s.PressesShown l) :=
  inferInstanceAs (Decidable (∀ press ∈ s.deletePress l, _))

/-- A removal finds no record or one that says who opened it. -/
def RemovesOpened (s : System) (l : Label) : Prop :=
  ∀ sent ∈ s.delivered l, ∀ key ∈ sent.2.removedKey, ∀ record ∈ s.db.products.lookup key,
    (record .openby).isSome

instance (s : System) (l : Label) : Decidable (s.RemovesOpened l) :=
  inferInstanceAs (Decidable (∀ sent ∈ s.delivered l, _))

def DeletesShown (s : System) (l : Label) : Prop := s.PressesShown l ∧ s.RemovesOpened l

instance (s : System) (l : Label) : Decidable (s.DeletesShown l) :=
  inferInstanceAs (Decidable (_ ∧ _))

variable {world : World} {ok : System → Label → Prop} {now : Date} {s s' : System}

/-- One event keeps the Listings tab to the signed-in user's products. -/
theorem listingsOwn_act (h : ReachesUnder world ok now s) {c : ClientId} {action : Action}
    {client : Client} {issues : List Issue} (hown : (s.client c).ListingsOwn s.states)
    (hact : (s.client c).act (s.env world c (action.ends s.now)) action =
      some (.done client issues)) :
    client.ListingsOwn s.states := by
  refine ⟨?_, ?_⟩
  · intro bar' hbar' screen hscreen
    rcases Client.act_listings hact hbar' with ⟨hnone, _⟩ | ⟨bar, hbar, hlisting, _⟩
    · rw [hnone] at hscreen
      cases hscreen
    · have hsession := Client.session_of_tabBar hact hbar
      rcases hlisting with hsame | ⟨hnew, hlists⟩
      · rw [hsame] at hscreen
        exact (hown.rows bar hbar screen hscreen).act hact hsession
      · rw [hnew] at hscreen
        obtain rfl := Option.some.inj hscreen
        exact ⟨⟨.yourListing, 1, []⟩, by simp [hlists], rfl, by simp⟩
  · intro bar' hbar' shown hshown
    rcases Client.act_listings hact hbar' with ⟨_, hnone⟩ | ⟨bar, hbar, _, hdetails⟩
    · rw [hnone] at hshown
      cases hshown
    · have hsession := Client.session_of_tabBar hact hbar
      rcases hdetails with hsame | hpopped | ⟨row, screen, list, ref, item, rfl, hscreen,
        hlist, href, hitem, hpushed⟩
      · rw [hsame] at hshown
        obtain ⟨user, huser, hopened⟩ := hown.details bar hbar shown hshown
        exact ⟨user, hsession.trans huser, hopened⟩
      · rw [hpopped] at hshown
        cases hshown
      · rw [hpushed] at hshown
        obtain rfl := Option.some.inj hshown
        obtain ⟨list', hlist', _, hrefs⟩ := hown.rows bar hbar screen hscreen
        obtain rfl := Option.some.inj (hlist.symm.trans hlist')
        obtain ⟨item', hitem', howner⟩ := hrefs ref (List.mem_of_getElem? href)
        obtain rfl := Option.some.inj (hitem.symm.trans hitem')
        have hsourced := item_sourced h c item (List.mem_of_getElem? hitem)
        exact ⟨item.openedBy, hsession.trans howner, hsourced.openedBy⟩

/-- Whatever has been tapped, the Listings tab of every client shows products of
its user. -/
theorem listings_own (h : ReachesUnder world ok now s) (c : ClientId) :
    (s.client c).ListingsOwn s.states := by
  refine client_invariant (fun dbs _ client => client.ListingsOwn dbs) ?_ ?_ ?_ ?_ h c
  · intro _ _
    refine ⟨?_, ?_⟩ <;> intro _ hnone <;> cases hnone
  · intro _ _ _ _ hsub hown
    refine ⟨hown.rows, ?_⟩
    intro bar hbar shown hshown
    obtain ⟨user, huser, hopened⟩ := hown.details bar hbar shown hshown
    exact ⟨user, huser, hopened.mono hsub⟩
  · intro _ _ _ hown
    exact ⟨hown.rows, hown.details⟩
  · intro s c action client issues hreaches _ hown hact
    exact listingsOwn_act hreaches hown hact

/-- Every removal that has been issued is of the product that was shown, and
the user who pressed had opened it. -/
theorem deletion_issued (h : ReachesUnder world DeletesShown now s) :
    ∀ issue ∈ s.net.issued, ∀ shown author, issue.call = .deleteListing shown author →
      issue.write = .removeProduct shown ∧
        ∃ user, author = some user ∧ OpenedBy s.states shown user := by
  refine issue_invariant
    (fun dbs issue => ∀ shown author, issue.call = .deleteListing shown author →
      issue.write = .removeProduct shown ∧
        ∃ user, author = some user ∧ OpenedBy dbs shown user) ?_ ?_ h
  · intro _ _ _ hsub hinv shown author hcall
    obtain ⟨hwrite, user, hauthor, hopened⟩ := hinv shown author hcall
    exact ⟨hwrite, user, hauthor, hopened.mono hsub⟩
  · intro s c action client issues hreaches hok hact issue hissue shown author hcall
    cases Client.act_issued hact issue hissue with
    | delete bar screen item hbar hscreen hitem =>
        obtain ⟨rfl, rfl⟩ := Call.deleteListing.inj hcall
        have hkey : item.uniqueKey = screen :=
          hok.1 (screen, item) (by simp [deletePress, hbar, hscreen, hitem])
        obtain ⟨user, huser, hopened⟩ :=
          (listings_own hreaches c).details bar hbar screen hscreen
        exact ⟨by rw [hkey], user, huser, hopened⟩
    | bid _ _ _ _ _ _ _ _ hbid =>
        rcases HomeFeedDetailsViewController.mem_bidIssues.mp hbid with rfl | rfl <;>
          cases hcall
    | _ => cases hcall

/-- While Delete is pressed with the shown product selected, and no record
without an opener is removed, it removes what it shows and what the user
owns. -/
theorem deletes_own {l : Label} (h : ReachesUnder world DeletesShown now s)
    (hok : s.DeletesShown l) (hstep : s.step world l = some s') : s.DeletesOwn l s' := by
  intro sent hsent shown author hcall
  cases l with
  | tick => cases hsent
  | act => cases hsent
  | deliver sender =>
      obtain ⟨issue, hdelivered, _, hwire, hdb⟩ := delivered_eq (step_deliver hstep)
      obtain rfl := Option.some.inj (hdelivered.symm.trans hsent)
      obtain ⟨hwrite, user, rfl, source, hsource, hopenby⟩ :=
        deletion_issued h issue ((honest h).mem_issued hwire) shown author hcall
      have hproducts : s'.db.products = s.db.products.erase shown := by
        rw [System.db, hdb, Issue.apply, hwrite]
        rfl
      refine ⟨?_, ?_, ?_⟩
      · rw [hproducts, Table.lookup_erase', if_pos rfl]
      · intro other hne
        rw [hproducts, Table.lookup_erase', if_neg hne]
      · intro record hrecord
        have hremoved : issue.removedKey = some shown := by simp [Issue.removedKey, hwrite]
        have hopened := hok.2 _ hsent shown hremoved record hrecord
        obtain ⟨value, hvalue⟩ := Option.isSome_iff_exists.mp hopened
        have hstored : s.db.productField shown .openby = some value :=
          Database.productField_eq_some.mpr ⟨record, hrecord, hvalue⟩
        have hsame := field_static h (Outbox.Net.db_mem_states _) hsource (by simp) (by simp)
          hstored hopenby
        exact ⟨user, rfl, by rw [hvalue, hsame]⟩

/-- Sue opens the lamp in her Listings tab. -/
def lampListed : List Label :=
  Scenario.deskOpened ++
    [.act 0 (.selectTab .yourListing), .act 0 (.productsEvent 1 5), .act 0 (.selectRow 0)]

theorem deletes_own_of_lamp :
    ∃ s s', ReachesUnder Scenario.world DeletesShown Scenario.opening s ∧
      s.step Scenario.world (.deliver 0) = some s' ∧
      (s.db.products.lookup Scenario.lamp).isSome ∧ s.DeletesOwn (.deliver 0) s' := by
  obtain ⟨s, hreach, hthere, hok, s', hstep, _⟩ :
      ∃ s, ReachesUnder Scenario.world DeletesShown Scenario.opening s ∧
        (s.db.products.lookup Scenario.lamp).isSome ∧ s.DeletesShown (.deliver 0) ∧
        ∃ s' ∈ s.step Scenario.world (.deliver 0), s'.wire.isEmpty = true :=
    Machine.exists_reaches (lampListed ++ [.act 0 .deleteListing]) (by decide +kernel)
      (by decide +kernel)
  exact ⟨s, s', hreach, hstep, hthere, deletes_own hreach hok hstep⟩

/-- She looks at the desk in the Feed before she presses Delete. -/
def deskSelected : List Label :=
  lampListed ++
    [.act 0 (.selectTab .homeFeed), .act 0 (.productsEvent 0 5), .act 0 (.selectRow 0),
      .act 0 (.selectTab .yourListing), .act 0 .deleteListing]

theorem not_deletes_own :
    ¬ ∀ (world : World) (now : Date) (s s' : System) (l : Label), Reachable world now s →
      s.step world l = some s' → s.DeletesOwn l s' := by
  intro hdeletes
  obtain ⟨s, hreach, ⟨sent, hsent, hcall⟩, s', hstep, hthere⟩ :
      ∃ s, Reachable Scenario.world Scenario.opening s ∧
        (∃ sent ∈ s.delivered (.deliver 0),
          sent.2.call = .deleteListing Scenario.lamp (some "sue")) ∧
        ∃ s' ∈ s.step Scenario.world (.deliver 0),
          (s'.db.products.lookup Scenario.lamp).isSome :=
    Machine.exists_reachable deskSelected (by decide +kernel)
  have hgone := (hdeletes _ _ s s' _ hreach hstep sent hsent _ _ hcall).1
  rw [hgone] at hthere
  cases hthere

end System

end Auctioneer
