import Auctioneer.Proof.Provenance

/-!
What an event does to the screens of a client: its heap of items, its lists,
and the Listings tab.
-/

namespace Auctioneer

/-- Every item keeps its place, its product and its seller. -/
def Heap.Extends (heap heap' : Heap) : Prop :=
  ∀ (ref : Nat) item, heap[ref]? = some item →
    ∃ item', heap'[ref]? = some item' ∧ item'.uniqueKey = item.uniqueKey ∧
      item'.openedBy = item.openedBy

theorem Heap.setPrice_kept {heap : Heap} {ref : Nat} {item : AuctionItem}
    (h : heap[ref]? = some item) (selected : Option Ref) (price : Price) :
    ∃ price', (heap.setPrice selected price)[ref]? =
      some { item with highestBidPrice := price' } := by
  cases selected with
  | none => exact ⟨item.highestBidPrice, h⟩
  | some changed =>
      simp only [Heap.setPrice, List.getElem?_modify, h, Option.map_eq_map, Option.map_some]
      split
      · exact ⟨price, rfl⟩
      · exact ⟨item.highestBidPrice, rfl⟩

namespace Client

variable {env : Env} {client client' : Client} {action : Action} {issues : List Issue}

/-- An event changes nothing but the price of an item. -/
theorem act_item_kept (h : client.act env action = some (.done client' issues)) {ref : Nat}
    {item : AuctionItem} (hitem : client.heap[ref]? = some item) :
    ∃ price, client'.heap[ref]? = some { item with highestBidPrice := price } := by
  generalize hheap : client'.heap = heap
  have hchange := act_heap h
  rw [hheap] at hchange
  cases hchange with
  | same => exact ⟨item.highestBidPrice, hitem⟩
  | list _ _ _ _ items =>
      refine ⟨item.highestBidPrice, ?_⟩
      rw [List.getElem?_append_left (List.getElem?_eq_some_iff.mp hitem).1, hitem]
  | price _ _ _ price => exact Heap.setPrice_kept hitem _ price

/-- So every item keeps its place, its product and its seller. -/
theorem act_extends (h : client.act env action = some (.done client' issues)) :
    client.heap.Extends client'.heap := by
  intro ref item hitem
  obtain ⟨price, hitem'⟩ := act_item_kept h hitem
  exact ⟨_, hitem', rfl, rfl⟩

/-- What becomes of a list screen: it keeps its rows, or an observer of its own
shows the items of a snapshot. -/
def ListKept (env : Env) (client client' : Client) (action : Action) (screen : Nat)
    (list : ListScreen) : Prop :=
  ∃ list', client'.listScreens[screen]? = some list' ∧ list'.kind = list.kind ∧
    (list'.auctionItemList = list.auctionItemList ∨
      ∃ snapshot db items, action = .productsEvent screen snapshot ∧
        db ∈ env.snapshots ∧ client.retrieveData env list.kind db = some items ∧
        client' = client.showItems screen items)

theorem ListKept.of_append {screen : Nat} {list : ListScreen} (added : List ListScreen)
    (hlist : client.listScreens[screen]? = some list)
    (hadded : client'.listScreens = client.listScreens ++ added) :
    ListKept env client client' action screen list := by
  refine ⟨list, ?_, rfl, .inl rfl⟩
  rw [hadded, List.getElem?_append_left (List.getElem?_eq_some_iff.mp hlist).1, hlist]

theorem act_lists (h : client.act env action = some (.done client' issues))
    {screen : Nat} {list : ListScreen} (hlist : client.listScreens[screen]? = some list) :
    ListKept env client client' action screen list := by
  cases act_effect h with
  | presented => exact .of_append _ hlist rfl
  | yourListing => exact .of_append _ hlist rfl
  | auctionWon => exact .of_append _ hlist rfl
  | refreshed refreshed =>
      by_cases hsame : refreshed = screen
      · subst hsame
        exact ⟨{ list with observers := list.observers + 1 }, by simp [hlist], rfl, .inl rfl⟩
      · exact ⟨list, by simp [hlist, hsame], rfl, .inl rfl⟩
  | listed shown snapshot list' db items hlist' hdb hitems =>
      by_cases hsame : shown = screen
      · subst hsame
        obtain rfl := Option.some.inj (hlist.symm.trans hlist')
        exact ⟨{ list with auctionItemList := List.range' client.heap.length items.length },
          by simp [showItems, hlist], rfl, .inr ⟨snapshot, db, items, rfl, hdb, hitems, rfl⟩⟩
      · exact ⟨list, by simp [showItems, hlist, hsame], rfl, .inl rfl⟩
  | _ => exact .of_append [] hlist (by simp)

/-- A list screen of a kind, all of whose rows meet a condition. -/
def Lists (kind : ListKind) (inv : AuctionItem → Prop) (client : Client) (screen : Nat) : Prop :=
  ∃ list, client.listScreens[screen]? = some list ∧ list.kind = kind ∧
    ∀ ref ∈ list.auctionItemList, ∃ item, client.heap[ref]? = some item ∧ inv item

theorem lists_of_new {kind : ListKind} {inv : AuctionItem → Prop} {screens : List ListScreen}
    (h : client.listScreens = screens ++ [⟨kind, 1, []⟩]) :
    client.Lists kind inv screens.length :=
  ⟨⟨kind, 1, []⟩, by simp [h], rfl, by simp⟩

/-- An event keeps the condition when a change of price does and the items that
the screen retrieves meet it. -/
theorem Lists.act {kind : ListKind} {inv inv' : AuctionItem → Prop} {screen : Nat}
    (h : client.Lists kind inv screen)
    (hact : client.act env action = some (.done client' issues))
    (hkept : ∀ item price, inv item → inv' { item with highestBidPrice := price })
    (hnew : ∀ db ∈ env.snapshots, ∀ items, client.retrieveData env kind db = some items →
      ∀ item ∈ items, inv' item) :
    client'.Lists kind inv' screen := by
  obtain ⟨list, hlist, rfl, hrefs⟩ := h
  obtain ⟨list', hlist', hkind', hrows | ⟨snapshot, db, items, rfl, hdb, hitems, rfl⟩⟩ :=
    act_lists hact hlist
  · refine ⟨list', hlist', hkind', ?_⟩
    intro ref href
    obtain ⟨item, hitem, hinv⟩ := hrefs ref (hrows ▸ href)
    obtain ⟨price, hitem'⟩ := act_item_kept hact hitem
    exact ⟨_, hitem', hkept item price hinv⟩
  · refine ⟨{ list with auctionItemList := List.range' client.heap.length items.length },
      by simp [showItems, hlist], rfl, ?_⟩
    intro ref href
    obtain ⟨hle, hlt⟩ : client.heap.length ≤ ref ∧ ref < client.heap.length + items.length :=
      List.mem_range'_1.mp href
    have hlt : ref - client.heap.length < items.length := Nat.sub_lt_left_of_lt_add hle hlt
    have hget : (client.heap ++ items)[ref]? = some items[ref - client.heap.length] := by
      rw [List.getElem?_append_right hle, List.getElem?_eq_getElem hlt]
    exact ⟨_, hget, hnew db hdb items hitems _ (List.getElem_mem hlt)⟩

/-- What becomes of the Listings list of the tab bar: it is the same, or it has
just been loaded and is empty. -/
def ListingKept (client client' : Client) (bar bar' : TabBar) : Prop :=
  bar'.yourListing = bar.yourListing ∨
    (bar'.yourListing = some client.listScreens.length ∧
      client'.listScreens = client.listScreens ++ [⟨.yourListing, 1, []⟩])

/-- What becomes of the details screen in the Listings tab: it is the same, or
popped, or pushed for a row of the Listings list. -/
def DetailsKept (client : Client) (action : Action) (bar bar' : TabBar) : Prop :=
  bar'.yourListingsDetails = bar.yourListingsDetails ∨ bar'.yourListingsDetails = none ∨
    ∃ row screen list ref item, action = .selectRow row ∧ bar.yourListing = some screen ∧
      client.listScreens[screen]? = some list ∧ list.auctionItemList[row]? = some ref ∧
      client.heap[ref]? = some item ∧ bar'.yourListingsDetails = some item.uniqueKey

theorem pushDetails_listings {row : Nat} {bar bar' : TabBar} {screen : Nat} {list : ListScreen}
    {ref : Ref} {item : AuctionItem} (hscreen : visibleList bar = some screen)
    (hlist : client.listScreens[screen]? = some list)
    (href : list.auctionItemList[row]? = some ref) (hitem : client.heap[ref]? = some item)
    (hbar' : (client.pushDetails bar ref item).tabBar = some bar') :
    bar'.yourListing = bar.yourListing ∧ DetailsKept client (.selectRow row) bar bar' := by
  cases htab : bar.selectedIndex with
  | yourListing =>
      simp only [visibleList, htab] at hscreen
      split at hscreen
      · simp only [pushDetails, htab, Option.some.injEq] at hbar'
        subst hbar'
        exact ⟨rfl, .inr (.inr ⟨row, screen, list, ref, item, rfl, hscreen, hlist, href, hitem,
          rfl⟩)⟩
      · cases hscreen
  | homeFeed =>
      simp only [pushDetails, htab, Option.some.injEq] at hbar'
      subst hbar'
      exact ⟨rfl, .inl rfl⟩
  | auctionWon =>
      simp only [pushDetails, htab, Option.some.injEq] at hbar'
      subst hbar'
      exact ⟨rfl, .inl rfl⟩
  | _ => simp [visibleList, htab] at hscreen

/-- What an event does to the Listings tab. A sign-in presents a fresh tab bar. -/
theorem act_listings (h : client.act env action = some (.done client' issues))
    {bar' : TabBar} (hbar' : client'.tabBar = some bar') :
    (bar'.yourListing = none ∧ bar'.yourListingsDetails = none) ∨
      ∃ bar, client.tabBar = some bar ∧ ListingKept client client' bar bar' ∧
        DetailsKept client action bar bar' := by
  cases act_effect h with
  | presented =>
      obtain rfl := Option.some.inj hbar'
      exact .inl ⟨rfl, rfl⟩
  | dismissed => cases hbar'
  | turned _ _ bar _ hbar hkeeps =>
      obtain rfl := Option.some.inj hbar'
      exact .inr ⟨bar, hbar, .inl hkeeps.yourListing, hkeeps.yourListingsDetails.imp_right .inl⟩
  | yourListing bar hbar =>
      obtain rfl := Option.some.inj hbar'
      exact .inr ⟨bar, hbar, .inr ⟨rfl, rfl⟩, .inl rfl⟩
  | auctionWon _ bar hbar =>
      obtain rfl := Option.some.inj hbar'
      exact .inr ⟨bar, hbar, .inl rfl, .inl rfl⟩
  | profile bar _ hbar =>
      obtain rfl := Option.some.inj hbar'
      exact .inr ⟨bar, hbar, .inl rfl, .inl rfl⟩
  | pushed row bar screen list ref item hbar hscreen hlist href hitem =>
      obtain ⟨hlisting, hdetails⟩ := pushDetails_listings hscreen hlist href hitem hbar'
      exact .inr ⟨bar, hbar, .inl hlisting, hdetails⟩
  | _ => exact .inr ⟨bar', hbar', .inl rfl, .inl rfl⟩

end Client

end Auctioneer
