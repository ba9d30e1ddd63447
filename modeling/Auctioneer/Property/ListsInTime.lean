import Auctioneer.Property.ListViews

/-!
What a list shows when its screen appears again. Nothing is retrieved then: the
rows are those of the last callback, and so is what they tell of the closing times.
-/

namespace Auctioneer

/-- What a screen that appears at an instant is to show: the Feed no product whose
closing date has passed, the Listings as open exactly what the user has open, and
the Won tab everything that the user has won. -/
def ListKind.UpToDate (kind : ListKind) (signedIn : Option String) (zone : TimeZone) (now : Date)
    (db : Database) (rows : List AuctionItem) : Prop :=
  match kind with
  | .homeFeed => ∀ row ∈ rows, ¬ row.closeDate < now
  | .yourListing => ∀ key,
      (∃ row ∈ rows, row.uniqueKey = key ∧ YourListingViewController.status row = "Open") ↔
        ∃ item, db.HasItem zone now item ∧ item.uniqueKey = key ∧
          signedIn = some item.openedBy ∧
          Date.isBetween now item.openDate item.closeDate = true
  | .auctionWon => ∀ item, db.HasItem zone now item → signedIn = some item.highestBidder →
      Date.isBetween now item.openDate item.closeDate = false →
      ∃ row ∈ rows, row.uniqueKey = item.uniqueKey

/-- Between the last callback and the instant no product has closed that the Feed
lists, none of the user's has opened or closed, and none that the user is the
highest bidder of has closed, for the three screens. -/
def ListKind.Unchanged (kind : ListKind) (signedIn : Option String) (zone : TimeZone)
    (called now : Date) (db : Database) : Prop :=
  ∀ item, db.HasItem zone now item →
    match kind with
    | .homeFeed => Date.isBetween called item.openDate item.closeDate = true →
        ¬ item.closeDate < now
    | .yourListing => signedIn = some item.openedBy →
        (Date.isBetween called item.openDate item.closeDate = true ↔
          Date.isBetween now item.openDate item.closeDate = true)
    | .auctionWon => signedIn = some item.highestBidder →
        Date.isBetween now item.openDate item.closeDate = false →
        Date.isBetween called item.openDate item.closeDate = false

/-- The item as another instant finds it. -/
def AuctionItem.asOf (now : Date) (item : AuctionItem) : AuctionItem :=
  { item with isnotClosed := Date.isBetween now item.openDate item.closeDate }

/-- The item but for its price. -/
def AuctionItem.unpriced (item : AuctionItem) : AuctionItem := { item with highestBidPrice := 0 }

section Rows

variable {zone : TimeZone} {called now : Date} {db : Database} {item : AuctionItem}
  {signedIn : Option String} {rows items : List AuctionItem}

/-- The instant of a decode matters to nothing but what is open. -/
theorem AuctionItem.decode_asOf {key : Key} {pairs : ProductRecord}
    (h : AuctionItem.decode zone called key pairs = some item) (now : Date) :
    AuctionItem.decode zone now key pairs = some (item.asOf now) := by
  simp only [AuctionItem.decode, Option.bind_eq_bind, Option.bind_eq_some_iff] at h ⊢
  obtain ⟨productname, hname, imageurl, himage, openby, hopenby, opentext, hopentext, opendate,
    hopen, closetext, hclosetext, closedate, hclose, starting, hstarting, price, hprice, bidder,
    hbidder, hitem⟩ := h
  obtain rfl := Option.some.inj hitem
  exact ⟨productname, hname, imageurl, himage, openby, hopenby, opentext, hopentext, opendate,
    hopen, closetext, hclosetext, closedate, hclose, starting, hstarting, price, hprice, bidder,
    hbidder, rfl⟩

theorem Database.HasItem.asOf (h : db.HasItem zone called item) (now : Date) :
    db.HasItem zone now (item.asOf now) := by
  obtain ⟨pairs, hlookup, hdecode⟩ := h
  exact ⟨pairs, hlookup, AuctionItem.decode_asOf hdecode now⟩

/-- What does not depend on the price holds of some row when it does of some item. -/
theorem exists_row_iff (h : rows.map AuctionItem.unpriced = items.map AuctionItem.unpriced)
    {P : AuctionItem → Prop} (hP : ∀ item : AuctionItem, P item.unpriced ↔ P item) :
    (∃ row ∈ rows, P row) ↔ ∃ item ∈ items, P item := by
  have hmap : ∀ list : List AuctionItem,
      (∃ item ∈ list, P item) ↔ ∃ item ∈ list.map AuctionItem.unpriced, P item := by
    intro list
    simp [hP]
  rw [hmap rows, hmap items, h]

/-- The Feed shows a product that has closed exactly when one was open at its last
callback. -/
theorem homeFeed_upToDate_iff (hexact : ExactView zone called signedIn .homeFeed db items)
    (hrows : rows.map AuctionItem.unpriced = items.map AuctionItem.unpriced) :
    ListKind.homeFeed.UpToDate signedIn zone now db rows ↔
      ListKind.homeFeed.Unchanged signedIn zone called now db := by
  have hmem := hexact.mem
  have hlate : (∃ row ∈ rows, row.closeDate < now) ↔ ∃ item ∈ items, item.closeDate < now :=
    exists_row_iff hrows fun _ => Iff.rfl
  constructor
  · intro hfeed item hitem hopen hpassed
    obtain ⟨row, hrow, hrowPassed⟩ := hlate.mpr
      ⟨item.asOf called, (hmem _).mpr ⟨hitem.asOf called, hopen⟩, hpassed⟩
    exact hfeed row hrow hrowPassed
  · intro hsame row hrow hpassed
    obtain ⟨item, hitem, hitemPassed⟩ := hlate.mp ⟨row, hrow, hpassed⟩
    obtain ⟨hhas, hopen⟩ := (hmem item).mp hitem
    exact hsame _ (hhas.asOf now) hopen hitemPassed

/-- A listing is marked as it was at the last callback. -/
theorem yourListing_upToDate_iff (hexact : ExactView zone called signedIn .yourListing db items)
    (hrows : rows.map AuctionItem.unpriced = items.map AuctionItem.unpriced) :
    ListKind.yourListing.UpToDate signedIn zone now db rows ↔
      ListKind.yourListing.Unchanged signedIn zone called now db := by
  have hmem := hexact.mem
  have hmarked : ∀ key, (∃ row ∈ rows, row.uniqueKey = key ∧
      YourListingViewController.status row = "Open") ↔
      ∃ item ∈ items, item.uniqueKey = key ∧ YourListingViewController.status item = "Open" :=
    fun key => exists_row_iff hrows fun _ => Iff.rfl
  simp only [ListKind.UpToDate, hmarked]
  simp only [YourListingViewController.status_eq_open, hmem]
  constructor
  · intro hlisted item hitem hopener
    constructor
    · intro hopen
      obtain ⟨other, hother, hkey, _, hopen'⟩ := (hlisted item.uniqueKey).mp
        ⟨item.asOf called, ⟨hitem.asOf called, hopener⟩, rfl, hopen⟩
      rwa [hother.unique hitem hkey] at hopen'
    · intro hopen
      obtain ⟨other, ⟨hother, _⟩, hkey, hopen'⟩ := (hlisted item.uniqueKey).mpr
        ⟨item, hitem, rfl, hopener, hopen⟩
      rw [hother.isnotClosed] at hopen'
      rw [← (hother.asOf now).unique hitem hkey]
      exact hopen'
  · intro hsame key
    constructor
    · rintro ⟨item, ⟨hitem, hopener⟩, hkey, hopen⟩
      rw [hitem.isnotClosed] at hopen
      exact ⟨item.asOf now, hitem.asOf now, hkey, hopener,
        (hsame _ (hitem.asOf now) hopener).mp hopen⟩
    · rintro ⟨item, hitem, hkey, hopener, hopen⟩
      exact ⟨item.asOf called, ⟨hitem.asOf called, hopener⟩, hkey,
        (hsame item hitem hopener).mpr hopen⟩

/-- The Won tab lacks a product exactly when it was not closed at the last
callback. -/
theorem auctionWon_upToDate_iff (hexact : ExactView zone called signedIn .auctionWon db items)
    (hrows : rows.map AuctionItem.unpriced = items.map AuctionItem.unpriced) :
    ListKind.auctionWon.UpToDate signedIn zone now db rows ↔
      ListKind.auctionWon.Unchanged signedIn zone called now db := by
  have hmem := hexact.mem
  have hlisted : ∀ key, (∃ row ∈ rows, row.uniqueKey = key) ↔
      ∃ item ∈ items, item.uniqueKey = key :=
    fun key => exists_row_iff hrows fun _ => Iff.rfl
  constructor
  · intro hwon item hitem hbidder hclosed
    obtain ⟨listed, hlistedItem, hkey⟩ := (hlisted _).mp (hwon item hitem hbidder hclosed)
    obtain ⟨hhas, _, hclosed'⟩ := (hmem listed).mp hlistedItem
    rw [← (hhas.asOf now).unique hitem hkey]
    exact hclosed'
  · intro hsame item hitem hbidder hclosed
    exact (hlisted _).mpr ⟨item.asOf called, (hmem _).mpr ⟨hitem.asOf called, hbidder,
      hsame item hitem hbidder hclosed⟩, rfl⟩

/-- A list that shows a snapshot as it was at the last callback is up to date
exactly when nothing has changed since that the screen tells. -/
theorem upToDate_iff {kind : ListKind}
    (hexact : ExactView zone called signedIn kind db items)
    (hrows : rows.map AuctionItem.unpriced = items.map AuctionItem.unpriced) :
    kind.UpToDate signedIn zone now db rows ↔ kind.Unchanged signedIn zone called now db := by
  cases kind with
  | homeFeed => exact homeFeed_upToDate_iff hexact hrows
  | yourListing => exact yourListing_upToDate_iff hexact hrows
  | auctionWon => exact auctionWon_upToDate_iff hexact hrows

end Rows

/-- No screen of the tab bar is among the first ones built. -/
structure TabBar.Beyond (first : Nat) (bar : TabBar) : Prop where
  homeFeed : first ≤ bar.homeFeed
  yourListing : ∀ screen ∈ bar.yourListing, first ≤ screen
  auctionWon : ∀ screen ∈ bar.auctionWon, first ≤ screen

namespace Client

variable {env : Env} {client client' u : Client} {action : Action} {issues : List Issue}
  {screen first : Nat} {items : List AuctionItem}

/-- Any event but a callback of the screen. -/
def Uncalled (screen : Nat) (_ : Client) (event : Env × Action) : Prop :=
  ∀ snapshot, event.2 ≠ .productsEvent screen snapshot

/-- The user is the same, or only screens built since can be seen. -/
structure SameUser (userName : Option String) (first : Nat) (client : Client) : Prop where
  built : first ≤ client.listScreens.length
  user : client.signedInUserName = userName ∨
    ∀ bar, client.tabBar = some bar → bar.Beyond first

theorem SameUser.act {userName : Option String} (h : client.SameUser userName first)
    (hact : client.act env action = some (.done client' issues)) :
    client'.SameUser userName first := by
  obtain ⟨hbuilt, huser⟩ := h
  cases act_effect hact with
  | worked => exact ⟨hbuilt, huser⟩
  | turned _ _ bar bar' hbar hkeeps =>
      refine ⟨hbuilt, huser.imp_right fun hbeyond => ?_⟩
      intro shown hshown
      obtain rfl := Option.some.inj hshown
      obtain ⟨hfeed, hlisting, hwon⟩ := hbeyond bar hbar
      exact ⟨hkeeps.homeFeed ▸ hfeed, hkeeps.yourListing ▸ hlisting, hkeeps.auctionWon ▸ hwon⟩
  | dismissed => exact ⟨hbuilt, .inr fun _ hbar => by cases hbar⟩
  | presented =>
      refine ⟨hbuilt.trans (by simp [presentMain]), .inr ?_⟩
      intro bar hbar
      obtain rfl := Option.some.inj hbar
      exact ⟨hbuilt, by simp, by simp⟩
  | yourListing bar hbar =>
      refine ⟨hbuilt.trans (by simp), huser.imp_right fun hbeyond => ?_⟩
      intro shown hshown
      obtain rfl := Option.some.inj hshown
      obtain ⟨hfeed, _, hwon⟩ := hbeyond bar hbar
      exact ⟨hfeed, by simpa using hbuilt, hwon⟩
  | auctionWon _ bar hbar =>
      refine ⟨hbuilt.trans (by simp), huser.imp_right fun hbeyond => ?_⟩
      intro shown hshown
      obtain rfl := Option.some.inj hshown
      obtain ⟨hfeed, hlisting, _⟩ := hbeyond bar hbar
      exact ⟨hfeed, hlisting, by simpa using hbuilt⟩
  | profile bar _ hbar =>
      refine ⟨hbuilt, huser.imp_right fun hbeyond => ?_⟩
      intro shown hshown
      obtain rfl := Option.some.inj hshown
      obtain ⟨hfeed, hlisting, hwon⟩ := hbeyond bar hbar
      exact ⟨hfeed, hlisting, hwon⟩
  | redrawn => exact ⟨hbuilt, huser⟩
  | pushed row bar _ _ ref item hbar =>
      refine ⟨by simpa using hbuilt, ?_⟩
      rw [pushDetails_signedInUserName]
      refine huser.imp_right fun hbeyond => ?_
      intro shown hshown
      obtain ⟨hfeed, hlisting, hwon⟩ := hbeyond bar hbar
      unfold pushDetails at hshown
      split at hshown
      iterate 3
        obtain rfl := Option.some.inj hshown
        exact ⟨hfeed, hlisting, hwon⟩
      exact hbeyond shown hshown
  | refreshed => exact ⟨by simpa using hbuilt, huser⟩
  | listed => exact ⟨by simpa [showItems] using hbuilt, huser⟩
  | priced => exact ⟨hbuilt, huser⟩
  | priceRead => exact ⟨hbuilt, huser⟩

/-- A screen that is seen again is seen by the user for whom it was called. -/
theorem user_of_visible (h : Machine.Reaches step (Uncalled screen) client u) {bar : TabBar}
    (hbuilt : screen < client.listScreens.length) (hbar : u.tabBar = some bar)
    (hvisible : visibleList bar = some screen) :
    u.signedInUserName = client.signedInUserName := by
  have hsame : u.SameUser client.signedInUserName (screen + 1) := by
    refine h.invariant (SameUser client.signedInUserName (screen + 1)) ⟨hbuilt, .inl rfl⟩ ?_
    rintro s ⟨env, action⟩ s' _ hinv _ htaken
    rcases step_eq_some htaken with rfl | ⟨issues, hact⟩
    · exact ⟨hinv.built, hinv.user⟩
    · exact hinv.act hact
  refine hsame.user.resolve_right fun hbeyond => ?_
  obtain ⟨hfeed, hlisting, hwon⟩ := hbeyond bar hbar
  unfold visibleList at hvisible
  split at hvisible
  · split at hvisible
    · obtain rfl := Option.some.inj hvisible
      omega
    · cases hvisible
  · split at hvisible
    · exact absurd (hlisting screen hvisible) (by omega)
    · cases hvisible
  · split at hvisible
    · exact absurd (hwon screen hvisible) (by omega)
    · cases hvisible
  · cases hvisible

/-- Until an observer of its screen is called, only prices change in a list. -/
theorem rows_kept_unpriced (h : Machine.Reaches step (Uncalled screen) client u)
    (hrows : client.rows screen = some items) :
    ∃ rows, u.rows screen = some rows ∧
      rows.map AuctionItem.unpriced = items.map AuctionItem.unpriced := by
  refine h.invariant (fun u => ∃ rows, u.rows screen = some rows ∧
    rows.map AuctionItem.unpriced = items.map AuctionItem.unpriced) ⟨items, hrows, rfl⟩ ?_
  rintro s ⟨env, action⟩ s' _ ⟨rows, hrows, hsame⟩ hok htaken
  rcases step_eq_some htaken with rfl | ⟨issues, hact⟩
  · exact ⟨rows, hrows, hsame⟩
  obtain ⟨list, hlist, hrefs⟩ := Option.bind_eq_some_iff.mp hrows
  obtain ⟨list', hlist', _, hkept | ⟨snapshot, _, _, hcalled, _⟩⟩ := act_lists hact hlist
  · obtain ⟨rows', hrows', hsame'⟩ := Traverse.mapM_agree hrefs AuctionItem.unpriced
      fun ref item hitem => by
        obtain ⟨price, hitem'⟩ := act_item_kept hact hitem
        exact ⟨_, hitem', rfl⟩
    refine ⟨rows', ?_, hsame'.trans hsame⟩
    simp only [Client.rows, hlist', hkept, Option.bind_some]
    exact hrows'
  · exact absurd hcalled (hok snapshot)

/-- A list that appears again is up to date with the clock exactly when nothing
that it tells has changed since its last callback. -/
theorem list_in_time_iff (h : Reachable client) {list : ListScreen} {db : Database}
    {event : Env × Action} {bar : TabBar} (hlist : client.listScreens[screen]? = some list)
    (hevent : Delivers screen db event) (hstep : client.step event = some client')
    (hlater : Machine.Reaches step (Uncalled screen) client' u) (hbar : u.tabBar = some bar)
    (hvisible : visibleList bar = some screen) (now : Date) :
    ∃ rows, u.rows screen = some rows ∧
      (list.kind.UpToDate u.signedInUserName event.1.zone now db rows ↔
        list.kind.Unchanged u.signedInUserName event.1.zone event.1.now now db) := by
  have hrunning : client.crashed = false := by
    by_contra hcrashed
    simp [step, act, hcrashed] at hstep
  obtain ⟨hobservers, hsession⟩ := h.observed screen list hlist
  obtain ⟨items, hshown, hexact⟩ := step_delivers hrunning hlist hobservers hsession hevent
  obtain rfl := Option.some.inj (hshown.symm.trans hstep)
  obtain ⟨rows, hrows, hsame⟩ := rows_kept_unpriced hlater (rows_showItems hlist)
  have hbuilt : screen < (client.showItems screen items).listScreens.length := by
    simpa [showItems] using (List.getElem?_eq_some_iff.mp hlist).1
  have hstays : u.signedInUserName = (client.showItems screen items).signedInUserName :=
    user_of_visible hlater hbuilt hbar hvisible
  have huser : (client.showItems screen items).signedInUserName = client.signedInUserName := rfl
  refine ⟨rows, hrows, ?_⟩
  rw [hstays, huser]
  exact upToDate_iff hexact hsame

/-- Amy's device after the lamp has closed. -/
def lampClosed : Env := { lampOpen with now := Scenario.closed, later := Scenario.closed }

/-- And an hour later. -/
def lampLongClosed : Env :=
  { lampOpen with now := Scenario.closed + 3600, later := Scenario.closed + 3600 }

/-- Amy opens the Won tab, where the lamp is listed, and comes back to it after an
hour. -/
theorem list_in_time_of_won :
    ∃ (u : Client) (rows : List AuctionItem), u.rows 1 = some rows ∧
      ListKind.auctionWon.UpToDate (some "amy") (TimeZone.fixed 480) (Scenario.closed + 3600)
        Scenario.lampAndAmy rows := by
  obtain ⟨client, hrun, hkind, client', hstep, away, haway, u, hback, huser, hvisible⟩ :
      ∃ client ∈ Machine.run step .launch
          [(lampClosed, .login 0 "amy" "q"), (lampClosed, .selectTab .auctionWon)],
        client.listScreens[1]?.map (·.kind) = some .auctionWon ∧
          ∃ client' ∈ client.step (lampClosed, .productsEvent 1 0),
            ∃ away ∈ client'.step (lampClosed, .selectTab .profile),
              ∃ u ∈ away.step (lampLongClosed, .selectTab .auctionWon),
                u.signedInUserName = some "amy" ∧ u.tabBar.bind visibleList = some 1 := by
    decide +kernel
  obtain ⟨list, hlist, hkind⟩ := Option.map_eq_some_iff.mp hkind
  obtain ⟨bar, hbar, hvisible⟩ := Option.bind_eq_some_iff.mp hvisible
  have hreach : Reachable client := Machine.reachable_of_run _ hrun
  have hevent : Delivers 1 Scenario.lampAndAmy (lampClosed, .productsEvent 1 0) :=
    ⟨0, rfl, rfl, lampAndAmy_readable⟩
  have hlater : Machine.Reaches step (Uncalled 1) client' u :=
    .step (.step .refl (fun _ heq => by cases heq) haway) (fun _ heq => by cases heq) hback
  obtain ⟨rows, hrows, hiff⟩ :=
    list_in_time_iff hreach hlist hevent hstep hlater hbar hvisible (Scenario.closed + 3600)
  obtain ⟨items, hitems, hclosed⟩ : ∃ items ∈ decodeProducts (TimeZone.fixed 480)
      (Scenario.closed + 3600) Scenario.lampAndAmy, ∀ item ∈ items,
        Date.isBetween Scenario.closed item.openDate item.closeDate = false := by
    decide +kernel
  rw [hkind, huser] at hiff
  exact ⟨u, rows, hrows, hiff.mpr fun item hitem _ _ =>
    hclosed item ((mem_decodeProducts_iff hitems).mpr hitem)⟩

/-- Amy looks at another tab until the lamp has closed, and finds it in the Feed. -/
theorem not_list_in_time :
    ¬ ∀ (client client' u : Client) (screen : Nat) (list : ListScreen) (db : Database)
      (event : Env × Action) (bar : TabBar) (now : Date), Reachable client →
      client.listScreens[screen]? = some list → Delivers screen db event →
      client.step event = some client' → Machine.Reaches step (Uncalled screen) client' u →
      u.tabBar = some bar → visibleList bar = some screen →
      ∃ rows, u.rows screen = some rows ∧
        list.kind.UpToDate u.signedInUserName event.1.zone now db rows := by
  intro hfresh
  obtain ⟨client, hrun, hkind, client', hstep, away, haway, u, hback, hvisible, rows, hrows, row,
      hrow, hpassed⟩ :
      ∃ client ∈ Machine.run step .launch [(lampOpen, .login 0 "amy" "q")],
        client.listScreens[0]?.map (·.kind) = some .homeFeed ∧
          ∃ client' ∈ client.step (lampOpen, .productsEvent 0 0),
            ∃ away ∈ client'.step (lampOpen, .selectTab .profile),
              ∃ u ∈ away.step (lampClosed, .selectTab .homeFeed),
                u.tabBar.bind visibleList = some 0 ∧
                  ∃ rows ∈ u.rows 0, ∃ row ∈ rows, row.closeDate < Scenario.closed := by
    decide +kernel
  obtain ⟨list, hlist, hkind⟩ := Option.map_eq_some_iff.mp hkind
  obtain ⟨bar, hbar, hvisible⟩ := Option.bind_eq_some_iff.mp hvisible
  have hreach : Reachable client := Machine.reachable_of_run _ hrun
  have hevent : Delivers 0 Scenario.lampAndAmy (lampOpen, .productsEvent 0 0) :=
    ⟨0, rfl, rfl, lampAndAmy_readable⟩
  have hlater : Machine.Reaches step (Uncalled 0) client' u :=
    .step (.step .refl (fun _ heq => by cases heq) haway) (fun _ heq => by cases heq) hback
  obtain ⟨rows', hrows', hdate⟩ := hfresh client client' u 0 list _ _ bar Scenario.closed hreach
    hlist hevent hstep hlater hbar hvisible
  obtain rfl := Option.some.inj (hrows.symm.trans hrows')
  rw [hkind] at hdate
  exact hdate row hrow hpassed

end Client

end Auctioneer
