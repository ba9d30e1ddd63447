import Auctioneer.Property.Deletion

/-!
Which product `Bid_Submit` writes to. The press is on the details screen in the
Feed tab, but it reads the item selected last, and a row of the Listings or the
Won tab may have been tapped since.
-/

namespace Auctioneer

namespace Client

/-- An item that the user won or is listed as having won: its auction has ended,
or nobody has bid on it and the user has the placeholder's name. -/
def Settled (now : Date) (item : AuctionItem) : Prop :=
  item.highestBidder = "-" ∨ item.Ended now

/-- A bid on the selected item is on the product that a details screen of the
Feed shows, or it is refused. -/
def Faces (now : Date) (client : Client) (screen : Nat) : Prop :=
  ∃ shown item, client.detailScreens[screen]? = some shown ∧ client.selectedItem = some item ∧
    (item.uniqueKey = shown.product ∨ client.signedInUserName = some item.openedBy ∨
      item.Ended now)

/-- What holds of the Won tab and of the details screen in the Feed tab. -/
structure Guarded (now : Date) (client : Client) : Prop where
  won : ∀ bar, client.tabBar = some bar → ∀ screen, bar.auctionWon = some screen →
    client.Lists .auctionWon (Settled now) screen
  details : ∀ bar, client.tabBar = some bar → ∀ screen, bar.homeFeedDetails = some screen →
    client.Faces now screen

variable {env : Env} {client client' : Client} {action : Action} {issues : List Issue}
  {now now' : Date}

theorem Guarded.mono (h : client.Guarded now) (hle : now ≤ now') : client.Guarded now' where
  won := by
    intro bar hbar screen hscreen
    obtain ⟨list, hlist, hkind, hrefs⟩ := h.won bar hbar screen hscreen
    refine ⟨list, hlist, hkind, ?_⟩
    intro ref href
    obtain ⟨item, hitem, hsettled⟩ := hrefs ref href
    exact ⟨item, hitem, hsettled.imp_right fun hended => hended.mono hle⟩
  details := by
    intro bar hbar screen hscreen
    obtain ⟨shown, item, hshown, hitem, hfaces⟩ := h.details bar hbar screen hscreen
    exact ⟨shown, item, hshown, hitem,
      hfaces.imp_right fun hrefused => hrefused.imp_right fun hended => hended.mono hle⟩

/-- A details screen stays on its product. -/
theorem act_detailScreens (h : client.act env action = some (.done client' issues))
    {screen : Nat} {shown : HomeFeedDetailsViewController.Screen}
    (hshown : client.detailScreens[screen]? = some shown) :
    ∃ shown', client'.detailScreens[screen]? = some shown' ∧ shown'.product = shown.product := by
  cases act_effect h with
  | pushed row bar _ _ ref item =>
      refine ⟨shown, ?_, rfl⟩
      unfold pushDetails
      split
      · rw [List.getElem?_append_left (List.getElem?_eq_some_iff.mp hshown).1, hshown]
      all_goals exact hshown
  | priced changed _ old _ _ _ hold =>
      by_cases heq : changed = screen
      · subst heq
        obtain rfl := Option.some.inj (hshown.symm.trans hold)
        obtain ⟨hlt, _⟩ := List.getElem?_eq_some_iff.mp hshown
        exact ⟨_, List.getElem?_set_self hlt, rfl⟩
      · exact ⟨shown, by rw [List.getElem?_set_ne heq, hshown], rfl⟩
  | _ => exact ⟨shown, hshown, rfl⟩

theorem Faces.act {screen : Nat} (h : client.Faces now screen)
    (hact : client.act env action = some (.done client' issues))
    (hsession : client'.signedInUserName = client.signedInUserName)
    (hselected : client'.selectedToViewAuctionItem = client.selectedToViewAuctionItem) :
    client'.Faces now screen := by
  obtain ⟨shown, item, hshown, hitem, hfaces⟩ := h
  obtain ⟨shown', hshown', hproduct⟩ := act_detailScreens hact hshown
  obtain ⟨ref, href, hget⟩ := Option.bind_eq_some_iff.mp hitem
  obtain ⟨price, hget'⟩ := act_item_kept hact hget
  refine ⟨shown', { item with highestBidPrice := price }, hshown', ?_, ?_⟩
  · simp [selectedItem, hselected, href, hget']
  · rw [hproduct, hsession]
    exact hfaces

/-- A row of the list on top has been tapped: of the Feed, it opens the product;
of the Listings tab, it is of the user; of the Won tab, its auction has ended. -/
theorem faces_pushDetails {bar bar' : TabBar} {screen top : Nat} {ref : Ref}
    {item : AuctionItem} (hitem : client.heap[ref]? = some item)
    (hscreen : visibleList bar = some screen)
    (hold : bar.homeFeedDetails = some top → client.Faces now top)
    (hown : bar.yourListing = some screen → client.signedInUserName = some item.openedBy)
    (hended : bar.selectedIndex = .auctionWon → bar.auctionWon = some screen → item.Ended now)
    (hbar' : (client.pushDetails bar ref item).tabBar = some bar')
    (htop : bar'.homeFeedDetails = some top) :
    (client.pushDetails bar ref item).Faces now top := by
  cases htab : bar.selectedIndex with
  | homeFeed =>
      simp only [pushDetails, htab, Option.some.injEq] at hbar' ⊢
      subst hbar'
      obtain rfl := Option.some.inj htop
      exact ⟨⟨ref, item.uniqueKey, none⟩, item, by simp, by simp [selectedItem, hitem],
        .inl rfl⟩
  | yourListing =>
      simp only [pushDetails, htab, Option.some.injEq] at hbar' ⊢
      subst hbar'
      obtain ⟨shown, _, hshown, _⟩ := hold htop
      have hvisible : bar.yourListing = some screen := by
        simp only [visibleList, htab, Option.ite_none_right_eq_some] at hscreen
        exact hscreen.2
      exact ⟨shown, item, hshown, by simp [selectedItem, hitem], .inr (.inl (hown hvisible))⟩
  | auctionWon =>
      simp only [pushDetails, htab, Option.some.injEq] at hbar' ⊢
      subst hbar'
      obtain ⟨shown, _, hshown, _⟩ := hold htop
      have hvisible : bar.auctionWon = some screen := by
        simp only [visibleList, htab, Option.ite_none_right_eq_some] at hscreen
        exact hscreen.2
      exact ⟨shown, item, hshown, by simp [selectedItem, hitem],
        .inr (.inr (hended htab hvisible))⟩
  | _ => simp [visibleList, htab] at hscreen

theorem pushDetails_auctionWon {bar bar' : TabBar} {ref : Ref} {item : AuctionItem}
    (hbar : client.tabBar = some bar)
    (hbar' : (client.pushDetails bar ref item).tabBar = some bar') :
    bar'.auctionWon = bar.auctionWon := by
  unfold pushDetails at hbar'
  split at hbar'
  all_goals first
    | obtain rfl := Option.some.inj hbar'
      rfl
    | rw [← Option.some.inj (hbar.symm.trans hbar')]

/-- The Won tab keeps its list, or has just been loaded. -/
theorem act_won {inv : AuctionItem → Prop}
    (h : client.act env action = some (.done client' issues))
    (hold : ∀ bar, client.tabBar = some bar → ∀ screen, bar.auctionWon = some screen →
      client'.Lists .auctionWon inv screen) :
    ∀ bar', client'.tabBar = some bar' → ∀ screen, bar'.auctionWon = some screen →
      client'.Lists .auctionWon inv screen := by
  intro bar' hbar' screen hscreen
  cases act_effect h with
  | presented =>
      obtain rfl := Option.some.inj hbar'
      cases hscreen
  | dismissed => cases hbar'
  | turned _ _ bar _ hbar hkeeps =>
      obtain rfl := Option.some.inj hbar'
      exact hold bar hbar screen (hkeeps.auctionWon ▸ hscreen)
  | yourListing bar hbar =>
      obtain rfl := Option.some.inj hbar'
      exact hold bar hbar screen hscreen
  | auctionWon _ bar hbar =>
      obtain rfl := Option.some.inj hbar'
      obtain rfl := Option.some.inj hscreen
      exact lists_of_new rfl
  | profile bar _ hbar =>
      obtain rfl := Option.some.inj hbar'
      exact hold bar hbar screen hscreen
  | pushed row bar _ _ ref item hbar =>
      exact hold bar hbar screen (pushDetails_auctionWon hbar hbar' ▸ hscreen)
  | _ => exact hold bar' hbar' screen hscreen

/-- One event keeps what a client is guarded by, when the items that the Won tab
retrieves are settled and a row tapped there has ended. -/
theorem Guarded.act {dbs : List Database} (h : client.Guarded now) (hown : client.ListingsOwn dbs)
    (hact : client.act env action = some (.done client' issues))
    (hwon : ∀ db ∈ env.snapshots, ∀ items, client.retrieveData env .auctionWon db = some items →
      ∀ item ∈ items, Settled now item)
    (htap : ∀ row bar screen list ref item, action = .selectRow row → client.tabBar = some bar →
      bar.selectedIndex = .auctionWon → bar.auctionWon = some screen →
      client.listScreens[screen]? = some list → list.auctionItemList[row]? = some ref →
      client.heap[ref]? = some item → item.highestBidder = "-" → item.Ended now) :
    client'.Guarded now where
  won := by
    refine act_won hact ?_
    intro bar hbar screen hscreen
    exact (h.won bar hbar screen hscreen).act hact (fun item price hsettled => hsettled) hwon
  details := by
    intro bar' hbar' screen hscreen
    have hold : client'.selectedToViewAuctionItem = client.selectedToViewAuctionItem →
        ∀ bar, client.tabBar = some bar → bar.homeFeedDetails = some screen →
        client'.Faces now screen := by
      intro hselected bar hbar hdetails
      exact (h.details bar hbar screen hdetails).act hact (session_of_tabBar hact hbar) hselected
    cases act_effect hact with
    | presented =>
        obtain rfl := Option.some.inj hbar'
        cases hscreen
    | dismissed => cases hbar'
    | turned _ _ bar _ hbar hkeeps =>
        obtain rfl := Option.some.inj hbar'
        rcases hkeeps.homeFeedDetails with hsame | hpopped
        · exact hold rfl bar hbar (hsame ▸ hscreen)
        · rw [hpopped] at hscreen
          cases hscreen
    | yourListing bar hbar =>
        obtain rfl := Option.some.inj hbar'
        exact hold rfl bar hbar hscreen
    | auctionWon _ bar hbar =>
        obtain rfl := Option.some.inj hbar'
        exact hold rfl bar hbar hscreen
    | profile bar _ hbar =>
        obtain rfl := Option.some.inj hbar'
        exact hold rfl bar hbar hscreen
    | pushed row bar shown list ref item hbar hvisible hlist href hitem =>
        refine faces_pushDetails hitem hvisible (h.details bar hbar screen) ?_ ?_ hbar' hscreen
        · intro hlisting
          obtain ⟨list', hlist', _, hrefs⟩ := hown.rows bar hbar shown hlisting
          obtain rfl := Option.some.inj (hlist.symm.trans hlist')
          obtain ⟨item', hitem', howner⟩ := hrefs ref (List.mem_of_getElem? href)
          obtain rfl := Option.some.inj (hitem.symm.trans hitem')
          exact howner
        · intro htab hlisted
          obtain ⟨list', hlist', _, hrefs⟩ := h.won bar hbar shown hlisted
          obtain rfl := Option.some.inj (hlist.symm.trans hlist')
          obtain ⟨item', hitem', hnobody | hended⟩ := hrefs ref (List.mem_of_getElem? href)
          · obtain rfl := Option.some.inj (hitem.symm.trans hitem')
            exact htap row bar shown list ref item rfl hbar htab hlisted hlist href hitem hnobody
          · obtain rfl := Option.some.inj (hitem.symm.trans hitem')
            exact hended
    | _ => exact hold rfl bar' hbar' hscreen

end Client

namespace System

/-- A press of `Bid_Submit` on a details screen of the Feed writes nothing, or
both halves of a bid on the product that the screen shows. -/
def BidsOnScreen (world : World) (s : System) : Prop :=
  ∀ c text bar screen shown client issues, (s.client c).tabBar = some bar →
    bar.homeFeedDetails = some screen → (s.client c).detailScreens[screen]? = some shown →
    (s.client c).act (s.env world c s.now) (.bidSubmit text) = some (.done client issues) →
    issues = [] ∨ ∃ amount bidder,
      issues = HomeFeedDetailsViewController.bidIssues shown.product amount bidder

/-- The item whose row in the Won tab an event taps. -/
def wonTap (s : System) : Label → Option AuctionItem
  | .act c (.selectRow row) => do
      let bar ← (s.client c).tabBar
      let screen ← bar.auctionWon
      let list ← (s.client c).listScreens[screen]?
      let ref ← list.auctionItemList[row]?
      let item ← (s.client c).heap[ref]?
      if bar.selectedIndex = .auctionWon then some item else none
  | _ => none

/-- A row of the Won tab that nobody has bid on is tapped only when the auction
has ended. -/
def TapsEnded (s : System) (l : Label) : Prop :=
  ∀ item ∈ s.wonTap l, item.highestBidder = "-" → item.Ended s.now

instance (s : System) (l : Label) : Decidable (s.TapsEnded l) :=
  inferInstanceAs (Decidable (∀ item ∈ s.wonTap l, _))

variable {world : World} {ok : System → Label → Prop} {zone : TimeZone} {now : Date} {s : System}

/-- The clock has reached the dates of a product. -/
def Begun (zone : TimeZone) (s : System) (key : Key) : Prop :=
  ∃ item : AuctionItem, item.uniqueKey = key ∧ item.Sourced zone s.states ∧
    min item.openDate item.closeDate ≤ s.now

theorem Begun.step {s' : System} {l : Label} {key : Key} (h : s.Begun zone key)
    (htaken : s.step world l = some s') : s'.Begun zone key := by
  obtain ⟨item, hkey, hsourced, hbegun⟩ := h
  exact ⟨item, hkey, hsourced.mono fun _ => step_states htaken, hbegun.trans (time_le htaken)⟩

/-- A product that has been bid on was open when it was. -/
theorem bid_begun (h : ReachesUnder (World.sharing zone) ok now s) :
    ∀ key amount bidder, HomeFeedDetailsViewController.bidderIssue key amount bidder ∈
      s.net.issued → s.Begun zone key := by
  refine h.invariant (fun s => ∀ key amount bidder,
    HomeFeedDetailsViewController.bidderIssue key amount bidder ∈ s.net.issued →
      s.Begun zone key) (by simp [start]) ?_
  intro s l s' hprior hinv _ htaken key amount bidder hissue
  refine Begun.step ?_ htaken
  rcases step_net htaken with ⟨hnet, _⟩ | ⟨_, _, hnet, _⟩ | ⟨c, action, client, issues, rfl, hact,
    hnet, _⟩
  · exact hinv key amount bidder (hnet ▸ hissue)
  · exact hinv key amount bidder (Outbox.Net.deliver_issued hnet ▸ hissue)
  rw [hnet, Outbox.Net.issue_issued, List.mem_append] at hissue
  rcases hissue with hold | hnew
  · exact hinv key amount bidder hold
  obtain ⟨item, _, _, hitem, _, _, hopen, heq⟩ := Client.act_bidder hact hnew rfl
  have hkey : key = item.uniqueKey :=
    (Write.setProductField.inj (congrArg Issue.write heq)).1
  exact ⟨item, hkey.symm, item_sourced hprior c item (Client.selectedItem_mem hitem),
    (Date.isBetween_eq_true.mp hopen).1⟩

/-- What the Won tab retrieves has ended, or nobody has bid on it. -/
theorem settled_of_retrieveData (h : ReachesUnder (World.sharing zone) ok now s) {c : ClientId}
    {ends : Date} {db : Database} (hdb : db ∈ s.states) {items : List AuctionItem}
    (hitems : (s.client c).retrieveData (s.env (World.sharing zone) c ends) .auctionWon db =
      some items) {item : AuctionItem} (hitem : item ∈ items) : Client.Settled s.now item := by
  obtain ⟨⟨dictionary, hdictionary, hmem⟩, _, hclosed⟩ :=
    AuctionWonViewController.mem_of_retrieveData hitems hitem
  obtain ⟨record, hrecord, hread⟩ := exists_of_mem_decodeProducts hdictionary hmem
  have hbidder := Database.productField_eq_some.mpr ⟨record, hrecord, hread.highestbidder⟩
  obtain ⟨bidder, heq, hnobody | ⟨amount, hbid⟩⟩ := bidder_origin h hdb hbidder
  · exact .inl ((Value.string.inj heq).trans hnobody)
  right
  obtain ⟨other, hkey, hsourced, hbegun⟩ := bid_begun h _ _ _ hbid
  have hsource : item.Sourced zone s.states := ⟨db, hdb, record, hrecord, hread.toDescribes⟩
  obtain ⟨hopen, hclose⟩ := dates_eq h hsource hsourced hkey
  rw [hopen, hclose] at hbegun
  rw [hread.isnotClosed] at hclosed
  exact AuctionItem.ended_of_not_isBetween hbegun hclosed

theorem guarded (h : ReachesUnder (World.sharing zone) TapsEnded now s) (c : ClientId) :
    (s.client c).Guarded s.now := by
  refine h.invariant (fun s => (s.client c).Guarded s.now) ?_ ?_
  · refine ⟨?_, ?_⟩ <;> intro _ hnone <;> cases hnone
  intro s l s' hprior hinv hok htaken
  refine Client.Guarded.mono ?_ (time_le htaken)
  rcases step_client htaken c with heq | heq | ⟨action, issues, rfl, hact⟩
  · rwa [heq]
  · rw [heq]
    exact ⟨hinv.won, hinv.details⟩
  refine hinv.act (listings_own hprior c) hact ?_ ?_
  · intro db hdb items hitems item hitem
    exact settled_of_retrieveData hprior hdb hitems hitem
  · rintro row bar screen list ref item rfl hbar htab hscreen hlist href hitem hnobody
    exact hok item (by simp [wonTap, hbar, htab, hscreen, hlist, href, hitem]) hnobody

/-- While no row of the Won tab that nobody has bid on is tapped before its
auction has ended, every bid is on the product of the screen it is made on. -/
theorem bids_on_screen (h : ReachesUnder (World.sharing zone) TapsEnded now s) :
    s.BidsOnScreen (World.sharing zone) := by
  intro c text bar screen shown client issues hbar hscreen hshown hact
  obtain ⟨shown', item, hshown', hitem, hfaces⟩ := (guarded h c).details bar hbar screen hscreen
  obtain rfl := Option.some.inj (hshown.symm.trans hshown')
  cases Client.act_issues hact with
  | silent => exact .inl rfl
  | bid _ item' userName amount hitem' huser hopened =>
      obtain rfl := Option.some.inj (hitem.symm.trans hitem')
      obtain ⟨hother, hopen, _⟩ := Client.bidOutcome_bid hitem huser hopened
      rcases hfaces with hkey | hown | hended
      · exact .inr ⟨amount, userName, by rw [hkey]⟩
      · exact absurd (Option.some.inj (hown.symm.trans huser)) hother
      · exact absurd hopen hended.not_isBetween

/-- The calls behind the writes of a press. -/
def pressCalls (world : World) (s : System) (c : ClientId) (text : String) : List Call :=
  match (s.client c).act (s.env world c s.now) (.bidSubmit text) with
  | some (.done _ issues) => issues.map (·.call)
  | _ => []

theorem BidsOnScreen.calls (h : s.BidsOnScreen world) {c : ClientId} {bar : TabBar}
    {screen : Nat} {shown : HomeFeedDetailsViewController.Screen}
    (hbar : (s.client c).tabBar = some bar) (hscreen : bar.homeFeedDetails = some screen)
    (hshown : (s.client c).detailScreens[screen]? = some shown) (text : String) :
    ∀ call ∈ s.pressCalls world c text,
      ∃ amount bidder, call = .bidSubmit shown.product amount bidder := by
  intro call hcall
  unfold pressCalls at hcall
  split at hcall
  · next client issues hact =>
    obtain ⟨issue, hissue, rfl⟩ := List.mem_map.mp hcall
    rcases h c text bar screen shown client issues hbar hscreen hshown hact with rfl |
      ⟨amount, bidder, rfl⟩
    · cases hissue
    · refine ⟨amount, bidder, ?_⟩
      rcases HomeFeedDetailsViewController.mem_bidIssues.mp hissue with rfl | rfl <;> rfl
  · cases hcall

/-- Amy is about to bid 20 on the lamp. -/
theorem bids_on_screen_of_amy :
    ∃ s, ReachesUnder Scenario.world TapsEnded Scenario.opening s ∧
      s.pressCalls Scenario.world 1 "20" =
        [.bidSubmit Scenario.lamp 20 "amy", .bidSubmit Scenario.lamp 20 "amy"] ∧
      s.BidsOnScreen Scenario.world := by
  obtain ⟨s, hreach, hcalls⟩ : ∃ s, ReachesUnder Scenario.world TapsEnded Scenario.opening s ∧
      s.pressCalls Scenario.world 1 "20" =
        [.bidSubmit Scenario.lamp 20 "amy", .bidSubmit Scenario.lamp 20 "amy"] :=
    Machine.exists_reaches (Scenario.lampOpened ++ Scenario.openFirst 1 4) (by decide +kernel)
      (by decide +kernel)
  exact ⟨s, hreach, hcalls, bids_on_screen hreach⟩

/-- A zone whose clocks are set back by an hour at the given minute. The hour
that they show twice is read as the second one. -/
def setBack (minute : ℤ) : TimeZone where
  offset m := if m < minute then 60 else 0
  resolve localMinute := some (if minute ≤ localMinute then localMinute else localMinute - 60)
  resolve_sound h := by
    simp only [Option.some.injEq] at h
    split_ifs at h ⊢ <;> omega
  resolve_complete _ := rfl

/-- Sue opens an auction in the zone of the run. -/
def sueOpens (itemName startingPrice : String) (now : Date) : List Label :=
  [.act 0 (.selectTab .openNewAuction),
    .act 0 (.imagePicked (some "item.jpg") (some "item.jpg")),
    .act 0 (.uploadEnded 0 (some "https://host/item.jpg")),
    .act 0 (.fillForm itemName startingPrice 14400), .act 0 (.submitAuction now), .deliver 0]

/-- The clocks are set back two hours into the run. Sue opens an auction of a
desk at once, and one of a lamp when half an hour is left; the record of the
lamp says that it opens an hour later. A user named "-" looks at the desk in the
Feed and at the lamp, listed as won, in the Won tab, and goes back to the Feed. -/
def lampBehindDesk : List Label :=
  [.act 0 (.signUp 0 "sue" "p"), .deliver 0, .act 1 (.signUp 1 "-" "q"), .deliver 1,
    .act 0 (.login 2 "sue" "p"), .act 1 (.login 2 "-" "q")] ++ sueOpens "Desk" "50" 0 ++
  [.tick 5400] ++ sueOpens "Lamp" "10" 5400 ++
  [.act 1 (.productsEvent 0 4), .act 1 (.selectRow 0), .act 1 (.detailsEvent 0 4),
    .act 1 (.selectTab .auctionWon), .act 1 (.productsEvent 1 4), .act 1 (.selectRow 0),
    .act 1 (.selectTab .homeFeed), .tick 9000]

theorem not_bids_on_screen :
    ¬ ∀ (zone : TimeZone) (now : Date) (s : System), Reachable (World.sharing zone) now s →
      s.BidsOnScreen (World.sharing zone) := by
  intro hbids
  obtain ⟨s, hreach, ⟨bar, hbar, hscreen⟩, ⟨shown, hshown, hdesk⟩, hcalls⟩ :
      ∃ s, Reachable (World.sharing (setBack 120)) 0 s ∧
        (∃ bar ∈ (s.client 1).tabBar, bar.homeFeedDetails = some 0) ∧
        (∃ shown ∈ (s.client 1).detailScreens[0]?, shown.product = 8) ∧
        .bidSubmit 13 60 "-" ∈ s.pressCalls (World.sharing (setBack 120)) 1 "60" :=
    Machine.exists_reachable lampBehindDesk (by decide +kernel)
  obtain ⟨amount, bidder, heq⟩ := (hbids _ _ s hreach).calls hbar hscreen hshown "60" _ hcalls
  rw [hdesk] at heq
  cases heq

end System

end Auctioneer
