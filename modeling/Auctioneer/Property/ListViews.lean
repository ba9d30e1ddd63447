import Auctioneer.Model.Labels
import Auctioneer.Proof.ClientRuns

/-!
What the three lists show. Each observer of a list screen clears the list and
rebuilds it from the whole snapshot, so after an event it does not matter how many
observers the refreshes have added.
-/

namespace Auctioneer

/-- Every record of the snapshot can be decoded on a device in the zone. -/
def Database.ProductsReadable (zone : TimeZone) (db : Database) : Prop :=
  ∀ key pairs, db.products.lookup key = some pairs → pairs.Complete ∧ pairs.DatesIn zone

/-- What a screen is to list at an instant: in the Feed what is open, in the
Listings what the user has opened, in the Won tab what is closed with the user as
the highest bidder. -/
def ListKind.Shows (kind : ListKind) (signedIn : Option String) (now : Date)
    (item : AuctionItem) : Prop :=
  match kind with
  | .homeFeed => Date.isBetween now item.openDate item.closeDate = true
  | .yourListing => signedIn = some item.openedBy
  | .auctionWon => signedIn = some item.highestBidder ∧
      Date.isBetween now item.openDate item.closeDate = false

/-- The item is what a record of the snapshot decodes to at an instant. -/
def Database.HasItem (zone : TimeZone) (now : Date) (db : Database) (item : AuctionItem) : Prop :=
  ∃ pairs, db.products.lookup item.uniqueKey = some pairs ∧
    AuctionItem.decode zone now item.uniqueKey pairs = some item

/-- One item for each product of the snapshot that the screen is to list, as its
record decodes, and no other. -/
structure ExactView (zone : TimeZone) (now : Date) (signedIn : Option String) (kind : ListKind)
    (db : Database) (items : List AuctionItem) : Prop where
  once : (items.map (·.uniqueKey)).Nodup
  mem : ∀ item, item ∈ items ↔ db.HasItem zone now item ∧ kind.Shows signedIn now item

section Retrieve

variable {zone : TimeZone} {now : Date} {db : Database} {items : List AuctionItem}
  {item : AuctionItem} {signedIn : Option String}

theorem Database.HasItem.isnotClosed (h : db.HasItem zone now item) :
    item.isnotClosed = Date.isBetween now item.openDate item.closeDate := by
  obtain ⟨_, _, hdecode⟩ := h
  exact (AuctionItem.decode_readFrom hdecode).isnotClosed

/-- A product of the snapshot has one item at each instant. -/
theorem Database.HasItem.unique {other : AuctionItem} (h : db.HasItem zone now item)
    (hother : db.HasItem zone now other) (hkey : item.uniqueKey = other.uniqueKey) :
    item = other := by
  obtain ⟨pairs, hlookup, hdecode⟩ := h
  obtain ⟨pairs', hlookup', hdecode'⟩ := hother
  rw [hkey] at hlookup hdecode
  obtain rfl := Option.some.inj (hlookup.symm.trans hlookup')
  exact Option.some.inj (hdecode.symm.trans hdecode')

theorem YourListingViewController.status_eq_open :
    YourListingViewController.status item = "Open" ↔ item.isnotClosed = true := by
  cases hopen : item.isnotClosed <;> simp [YourListingViewController.status, hopen]

/-- The first loop makes one item of each record. -/
theorem mem_decodeProducts_iff (h : decodeProducts zone now db = some items) :
    item ∈ items ↔ db.HasItem zone now item := by
  constructor
  · intro hitem
    obtain ⟨⟨key, pairs⟩, hentry, hdecode⟩ := Traverse.exists_of_mem h hitem
    obtain rfl := (AuctionItem.decode_readFrom hdecode).uniqueKey
    exact ⟨pairs, mem_entries_iff.mp hentry, hdecode⟩
  · rintro ⟨pairs, hlookup, hdecode⟩
    obtain ⟨decoded, hmem, hdecode'⟩ := Traverse.mem_of_mem h (mem_entries_iff.mpr hlookup)
    obtain rfl := Option.some.inj (hdecode.symm.trans hdecode')
    exact hmem

theorem decodeProducts_keys (h : decodeProducts zone now db = some items) :
    items.map (·.uniqueKey) = db.products.keys :=
  Traverse.map_eq h fun _ _ hdecode => (AuctionItem.decode_readFrom hdecode).uniqueKey

/-- The second loop keeps the items that its screen is to list. -/
theorem exactView_filter (h : decodeProducts zone now db = some items) {kind : ListKind}
    {keep : AuctionItem → Bool}
    (hkeep : ∀ item ∈ items, keep item = true ↔ kind.Shows signedIn now item) :
    ExactView zone now signedIn kind db (items.filter keep) where
  once := by
    have hsub : ((items.filter keep).map (·.uniqueKey)).Sublist (items.map (·.uniqueKey)) :=
      List.Sublist.map _ List.filter_sublist
    rw [decodeProducts_keys h] at hsub
    exact hsub.nodup db.products.nodupKeys
  mem := by
    intro item
    rw [List.mem_filter, and_congr_right (hkeep item), mem_decodeProducts_iff h]

/-- What each screen keeps of a snapshot that is well formed. -/
theorem retrieveData_exact {env : Env} {client : Client} (kind : ListKind)
    (hread : db.ProductsReadable env.zone) (huser : client.signedInUserName.isSome) :
    ∃ items, client.retrieveData env kind db = some items ∧
      ExactView env.zone env.now client.signedInUserName kind db items := by
  obtain ⟨userName, huser⟩ := Option.isSome_iff_exists.mp huser
  obtain ⟨items, hitems⟩ : ∃ items, decodeProducts env.zone env.now db = some items :=
    Option.isSome_iff_exists.mp
      ((decodeProducts_isSome_iff fun key pairs hlookup => (hread key pairs hlookup).1).mpr
        fun key pairs hlookup => (hread key pairs hlookup).2)
  rw [huser]
  cases kind with
  | homeFeed =>
      refine ⟨items.filter (·.isnotClosed), by
        simp [Client.retrieveData, HomeFeedViewController.retrieveData, hitems], ?_⟩
      refine exactView_filter hitems fun item hitem => ?_
      rw [((mem_decodeProducts_iff hitems).mp hitem).isnotClosed]
      rfl
  | yourListing =>
      refine ⟨items.filter (YourListingViewController.keeps userName), by
        simp [Client.retrieveData, YourListingViewController.retrieveData, hitems, keepFor,
          huser], ?_⟩
      refine exactView_filter hitems fun item _ => ?_
      simp [YourListingViewController.keeps, ListKind.Shows, @eq_comm _ userName]
  | auctionWon =>
      refine ⟨items.filter (AuctionWonViewController.keeps userName), by
        simp [Client.retrieveData, AuctionWonViewController.retrieveData, hitems, keepFor,
          huser], ?_⟩
      refine exactView_filter hitems fun item hitem => ?_
      simp [AuctionWonViewController.keeps, ListKind.Shows,
        ((mem_decodeProducts_iff hitems).mp hitem).isnotClosed, @eq_comm _ userName]

end Retrieve

namespace Client

/-- An observer of the screen is called with the snapshot. -/
def Delivers (screen : Nat) (db : Database) (event : Env × Action) : Prop :=
  ∃ snapshot, event.2 = .productsEvent screen snapshot ∧
    event.1.snapshots[snapshot]? = some db ∧ db.ProductsReadable event.1.zone

/-- Any event but a callback of the screen or of a price. -/
def Undisturbed (screen : Nat) (_ : Client) (event : Env × Action) : Prop :=
  match event.2 with
  | .productsEvent other _ => other ≠ screen
  | .detailsEvent _ _ => False
  | .priceRead _ _ => False
  | _ => True

variable {env : Env} {client client' u : Client} {action : Action} {issues : List Issue}
  {screen : Nat} {list : ListScreen} {db : Database} {items : List AuctionItem}

/-- Loading a list screen registers an observer, and only a signed-in user gets to
one. -/
def Observed (client : Client) : Prop :=
  ∀ (screen : Nat) list, client.listScreens[screen]? = some list →
    0 < list.observers ∧ client.signedInUserName.isSome

theorem Reachable.observed (h : Reachable client) : client.Observed := by
  refine h.invariant Observed (by intro _ _ hlist; cases hlist) ?_
  rintro client ⟨env, action⟩ client' hreach hinv _ htaken screen list hlist
  have happended : ∀ {kind : ListKind} {userName : Option String}, userName.isSome →
      (client.listScreens ++ [⟨kind, 1, []⟩])[screen]? = some list →
      0 < list.observers ∧ userName.isSome := by
    intro kind userName huser hlist
    rcases List.mem_append.mp (List.mem_of_getElem? hlist) with hold | hnew
    · obtain ⟨index, hindex⟩ := List.mem_iff_getElem?.mp hold
      exact ⟨(hinv index list hindex).1, huser⟩
    · obtain rfl := List.mem_singleton.mp hnew
      exact ⟨Nat.one_pos, huser⟩
  rcases step_eq_some htaken with rfl | ⟨issues, hact⟩
  · exact hinv screen list hlist
  cases act_effect hact with
  | presented => exact happended rfl hlist
  | yourListing bar hbar => exact happended ((Reachable.sound hreach).session bar hbar) hlist
  | auctionWon _ bar hbar => exact happended ((Reachable.sound hreach).session bar hbar) hlist
  | pushed row bar _ _ ref item =>
      rw [pushDetails_listScreens] at hlist
      rw [pushDetails_signedInUserName]
      exact hinv screen list hlist
  | refreshed refreshed =>
      simp only [List.getElem?_modify, Option.map_eq_map, Option.map_eq_some_iff] at hlist
      obtain ⟨old, hold, rfl⟩ := hlist
      split
      · exact ⟨Nat.succ_pos _, (hinv screen old hold).2⟩
      · exact hinv screen old hold
  | listed shown =>
      simp only [showItems, List.getElem?_modify, Option.map_eq_map,
        Option.map_eq_some_iff] at hlist
      obtain ⟨old, hold, rfl⟩ := hlist
      split <;> exact hinv screen old hold
  | _ => exact hinv screen list hlist

/-- The list that a callback leaves behind. -/
theorem rows_showItems (hlist : client.listScreens[screen]? = some list) :
    (client.showItems screen items).rows screen = some items := by
  have hrows : (List.range' client.heap.length items.length).mapM
      (fun ref => (client.heap ++ items)[ref]?) = some items := by
    rw [Traverse.mapM_eq_some_iff]
    refine List.ext_getElem (by simp) fun index hleft hright => ?_
    have hlt : index < items.length := by simpa using hright
    simp [hlt]
  simpa [rows, showItems, hlist] using hrows

/-- A list stays as it is until an observer of its screen is called, whatever else
the user does; only the callbacks of a price write to items. -/
theorem act_rows (h : client.act env action = some (.done client' issues))
    (hok : Undisturbed screen client (env, action)) (hrows : client.rows screen = some items) :
    client'.rows screen = some items := by
  obtain ⟨list, hlist, hrefs⟩ := Option.bind_eq_some_iff.mp hrows
  obtain ⟨list', hlist', _, hsame | ⟨_, _, _, rfl, _⟩⟩ := act_lists h hlist
  · simp only [rows, hlist', hsame, Option.bind_some]
    refine Traverse.mapM_mono hrefs fun ref item hitem => ?_
    generalize hheap : client'.heap = heap
    have hchange := act_heap h
    rw [hheap] at hchange
    cases hchange with
    | same => exact hitem
    | list => rw [List.getElem?_append_left (List.getElem?_eq_some_iff.mp hitem).1, hitem]
    | price _ _ _ _ hprice =>
        rcases hprice with ⟨_, _, _, rfl, _⟩ | ⟨_, _, rfl, _⟩
        · exact hok.elim
        · exact hok.elim
  · exact absurd rfl hok

theorem rows_kept (h : Machine.Reaches step (Undisturbed screen) client u)
    (hrows : client.rows screen = some items) : u.rows screen = some items := by
  refine h.invariant (fun u => u.rows screen = some items) hrows ?_
  intro u event u' _ hkept hok htaken
  rcases step_eq_some htaken with rfl | ⟨issues, hact⟩
  · exact hkept
  · exact act_rows hact hok hkept

/-- One callback of an observer of the screen. -/
theorem step_delivers {event : Env × Action} (hrunning : client.crashed = false)
    (hlist : client.listScreens[screen]? = some list) (hobservers : 0 < list.observers)
    (huser : client.signedInUserName.isSome) (hevent : Delivers screen db event) :
    ∃ items, client.step event = some (client.showItems screen items) ∧
      ExactView event.1.zone event.1.now client.signedInUserName list.kind db items := by
  obtain ⟨env, action⟩ := event
  obtain ⟨snapshot, rfl, hdb, hread⟩ := hevent
  obtain ⟨items, hitems, hexact⟩ := retrieveData_exact list.kind hread huser
  refine ⟨items, ?_, hexact⟩
  simp [step, act, productsEvent, hrunning, hlist, hdb, Nat.pos_iff_ne_zero.mp hobservers, hitems,
    Reaction.orCrash]

/-- The callbacks of all the observers of the screen: the last one decides. -/
theorem run_delivers {event : Env × Action} {events : List (Env × Action)}
    (hrunning : client.crashed = false) (hlist : client.listScreens[screen]? = some list)
    (hobservers : 0 < list.observers) (huser : client.signedInUserName.isSome)
    (hevents : ∀ other ∈ event :: events, Delivers screen db other) :
    ∃ last ∈ (event :: events).getLast?, ∃ client' items,
      Machine.run step client (event :: events) = some client' ∧
      client'.rows screen = some items ∧
      ExactView last.1.zone last.1.now client.signedInUserName list.kind db items := by
  induction events generalizing event client list with
  | nil =>
      obtain ⟨items, hstep, hexact⟩ :=
        step_delivers hrunning hlist hobservers huser (hevents event List.mem_cons_self)
      exact ⟨event, rfl, client.showItems screen items, items, by simp [Machine.run, hstep],
        rows_showItems hlist, hexact⟩
  | cons next events ih =>
      obtain ⟨items, hstep, _⟩ :=
        step_delivers hrunning hlist hobservers huser (hevents event List.mem_cons_self)
      have hlist' : (client.showItems screen items).listScreens[screen]? = some
          { list with
            auctionItemList := List.range' client.heap.length items.length } := by
        simp [showItems, hlist]
      have hrunning' : (client.showItems screen items).crashed = false := hrunning
      obtain ⟨last, hlast, client', items', hrun, hrows, hexact⟩ := ih hrunning' hlist' hobservers
        huser fun other hother => hevents other (List.mem_cons_of_mem _ hother)
      refine ⟨last, ?_, client', items', ?_, hrows, hexact⟩
      · rwa [List.getLast?_cons_cons]
      · rw [Machine.run, hstep, Option.bind_some, hrun]

/-- Whatever went before, a callback leaves the screen with exactly what it is to
list of the snapshot then, until an observer of it is called again. -/
def CallbacksExact (client : Client) : Prop :=
  ∀ (screen : Nat) list db event, client.crashed = false →
    client.listScreens[screen]? = some list → Delivers screen db event →
    ∃ client' items, client.step event = some client' ∧
      ExactView event.1.zone event.1.now client.signedInUserName list.kind db items ∧
      ∀ u, Machine.Reaches step (Undisturbed screen) client' u → u.rows screen = some items

/-- So do the callbacks of all the observers that the screen has registered. -/
def EventsExact (client : Client) : Prop :=
  ∀ (screen : Nat) list db events, client.crashed = false →
    client.listScreens[screen]? = some list → events.length = list.observers →
    (∀ event ∈ events, Delivers screen db event) →
    ∃ last ∈ events.getLast?, ∃ client' items, Machine.run step client events = some client' ∧
      ExactView last.1.zone last.1.now client.signedInUserName list.kind db items ∧
      ∀ u, Machine.Reaches step (Undisturbed screen) client' u → u.rows screen = some items

/-- What the screens make of one snapshot at one instant: no product is in the Feed
and won, and a listing is marked open exactly when it is in the Feed. -/
def ListsAgree : Prop :=
  ∀ (zone : TimeZone) (now : Date) (signedIn : Option String) (db : Database)
    (feed listings won : List AuctionItem),
    HomeFeedViewController.retrieveData zone now db = some feed →
    YourListingViewController.retrieveData zone now signedIn db = some listings →
    AuctionWonViewController.retrieveData zone now signedIn db = some won →
    (∀ item ∈ feed, ∀ other ∈ won, item.uniqueKey ≠ other.uniqueKey) ∧
      ∀ item ∈ listings, YourListingViewController.status item = "Open" ↔
        ∃ other ∈ feed, other.uniqueKey = item.uniqueKey

theorem listsAgree : ListsAgree := by
  intro zone now signedIn db feed listings won hfeed hlistings hwon
  obtain ⟨items, hitems, hfeed⟩ := Option.bind_eq_some_iff.mp hfeed
  obtain rfl := Option.some.inj hfeed
  have hfed : ∀ other, other ∈ items.filter (·.isnotClosed) ↔
      other ∈ items ∧ other.isnotClosed = true := fun other => List.mem_filter
  have hunique : ∀ {item other : AuctionItem}, item ∈ items → other ∈ items →
      item.uniqueKey = other.uniqueKey → item = other := fun hitem hother hkey =>
    ((mem_decodeProducts_iff hitems).mp hitem).unique
      ((mem_decodeProducts_iff hitems).mp hother) hkey
  constructor
  · intro item hitem other hother hkey
    obtain ⟨hmem, hopen⟩ := (hfed item).mp hitem
    obtain ⟨⟨dictionary, hdictionary, hmem'⟩, _, hclosed⟩ :=
      AuctionWonViewController.mem_of_retrieveData hwon hother
    obtain rfl := Option.some.inj (hitems.symm.trans hdictionary)
    obtain rfl := hunique hmem hmem' hkey
    rw [hopen] at hclosed
    cases hclosed
  · intro item hitem
    obtain ⟨⟨dictionary, hdictionary, hmem⟩, _⟩ :=
      YourListingViewController.mem_of_retrieveData hlistings hitem
    obtain rfl := Option.some.inj (hitems.symm.trans hdictionary)
    rw [YourListingViewController.status_eq_open]
    constructor
    · intro hopen
      exact ⟨item, (hfed item).mpr ⟨hmem, hopen⟩, rfl⟩
    · rintro ⟨other, hother, hkey⟩
      obtain ⟨hmem', hopen⟩ := (hfed other).mp hother
      rwa [hunique hmem' hmem hkey] at hopen

/-- In every state of a client the lists become exact views of what they are shown,
and the three screens agree. -/
theorem lists_exact (h : Reachable client) :
    client.CallbacksExact ∧ client.EventsExact ∧ ListsAgree := by
  refine ⟨?_, ?_, listsAgree⟩
  · intro screen list db event hrunning hlist hevent
    obtain ⟨hobservers, huser⟩ := h.observed screen list hlist
    obtain ⟨items, hstep, hexact⟩ := step_delivers hrunning hlist hobservers huser hevent
    exact ⟨_, items, hstep, hexact, fun u hu => rows_kept hu (rows_showItems hlist)⟩
  · intro screen list db events hrunning hlist hlength hevents
    obtain ⟨hobservers, huser⟩ := h.observed screen list hlist
    cases events with
    | nil => exact absurd hlength hobservers.ne
    | cons event events =>
        obtain ⟨last, hlast, client', items, hrun, hrows, hexact⟩ :=
          run_delivers hrunning hlist hobservers huser hevents
        exact ⟨last, hlast, client', items, hrun, hexact, fun u hu => rows_kept hu hrows⟩

/-- Amy's device while the lamp is open. -/
def lampOpen : Env where
  zone := TimeZone.fixed 480
  now := Scenario.opening
  later := Scenario.opening
  snapshots := [Scenario.lampAndAmy]
  freshKey := 2

theorem lampAndAmy_readable : Scenario.lampAndAmy.ProductsReadable (TimeZone.fixed 480) := by
  have hall : ∀ entry ∈ Scenario.lampAndAmy.products.entries,
      (∀ field : ProductField, field ∈ [.productname, .imageurl, .openby, .opendate, .closedate,
        .highestbidder] → (castString (entry.2 field)).isSome) ∧
      (castDouble (entry.2 .startingprice)).isSome ∧
      (castDouble (entry.2 .highestbidprice)).isSome ∧
      ProductRecord.DatesIn (TimeZone.fixed 480) entry.2 := by
    decide +kernel
  intro key pairs hlookup
  obtain ⟨htexts, hstarting, hprice, hdates⟩ := hall ⟨key, pairs⟩ (mem_entries_iff.mpr hlookup)
  exact ⟨⟨htexts _ (by simp), htexts _ (by simp), htexts _ (by simp), htexts _ (by simp),
    htexts _ (by simp), hstarting, hprice, htexts _ (by simp)⟩, hdates⟩

/-- Amy signs in and her Feed is called with the lamp. -/
theorem lists_exact_of_lamp :
    ∃ (client client' : Client) (items : List AuctionItem),
      client.step (lampOpen, .productsEvent 0 0) = some client' ∧
      client'.rows 0 = some items ∧
      ExactView (TimeZone.fixed 480) Scenario.opening (some "amy") .homeFeed Scenario.lampAndAmy
        items := by
  obtain ⟨client, hrun, hrunning, huser, list, hlist, hkind⟩ :
      ∃ client ∈ Machine.run step .launch [(lampOpen, .login 0 "amy" "q")],
        client.crashed = false ∧ client.signedInUserName = some "amy" ∧
          ∃ list ∈ client.listScreens[0]?, list.kind = .homeFeed := by
    decide +kernel
  have hreach : Reachable client := Machine.reachable_of_run _ hrun
  have hevent : Delivers 0 Scenario.lampAndAmy (lampOpen, .productsEvent 0 0) :=
    ⟨0, rfl, rfl, lampAndAmy_readable⟩
  obtain ⟨client', items, hstep, hexact, hrows⟩ :=
    (lists_exact hreach).1 0 list _ _ hrunning hlist hevent
  rw [huser, hkind] at hexact
  exact ⟨client, client', items, hstep, hrows client' .refl, hexact⟩

end Client

end Auctioneer
