import Auctioneer.Proof.EchoRuns

/-!
The price that a bid is checked against. The observer of a details screen is
never removed, and writes the price of its own product into whatever item is
selected when it runs; and an app is shown its own prices before the database
has them.
-/

namespace Auctioneer

/-- The price of the item is one that its product has had. -/
def AuctionItem.PriceHeld (dbs : List Database) (item : AuctionItem) : Prop :=
  ∃ db ∈ dbs, db.highestbidprice item.uniqueKey = some item.highestBidPrice

theorem AuctionItem.PriceHeld.mono {dbs dbs' : List Database} {item : AuctionItem}
    (hsub : dbs ⊆ dbs') (h : item.PriceHeld dbs) : item.PriceHeld dbs' := by
  obtain ⟨db, hdb, hprice⟩ := h
  exact ⟨db, hsub hdb, hprice⟩

namespace System

/-- On every client, the selected item shows a price that its own product has
had. -/
def HoldsOwnPrices (s : System) : Prop :=
  ∀ c, ∀ item ∈ (s.client c).selectedItem, item.PriceHeld s.states

/-- The client of a price event and the product that it is about. -/
def priceEvent (s : System) : Label → Option (ClientId × Key)
  | .act c (.detailsEvent screen _) =>
      (s.client c).detailScreens[screen]?.map fun shown => (c, shown.product)
  | .act c (.priceRead read _) => (s.client c).priceReads[read]?.map (c, ·)
  | _ => none

/-- A price event runs while an item of its own product, or none, is selected. -/
def PricesSelected (s : System) (l : Label) : Prop :=
  ∀ event ∈ s.priceEvent l, ∀ item ∈ (s.client event.1).selectedItem,
    item.uniqueKey = event.2

instance (s : System) (l : Label) : Decidable (s.PricesSelected l) :=
  inferInstanceAs (Decidable (∀ event ∈ s.priceEvent l, _))

variable {s : System}

/-- The item that a price event writes to is of the product of the event. -/
theorem selected_of_price {c : ClientId} {action : Action} {product : Key}
    (hok : s.PricesSelected (.act c action))
    (hevent : (s.client c).PriceEvent action product) {item : AuctionItem}
    (hitem : (s.client c).selectedItem = some item) : item.uniqueKey = product := by
  refine hok (c, product) ?_ item hitem
  rcases hevent with ⟨screen, snapshot, shown, rfl, hshown, rfl⟩ |
    ⟨read, snapshot, rfl, hread⟩
  · simp [priceEvent, hshown]
  · simp [priceEvent, hread]

end System

namespace Client

/-- The item whose row a tap selects. -/
def tappedItem (client : Client) (row : Nat) : Option AuctionItem := do
  let bar ← client.tabBar
  let screen ← visibleList bar
  let list ← client.listScreens[screen]?
  let ref ← list.auctionItemList[row]?
  client.heap[ref]?

/-- The product and the price that an event puts before the user: of a price event
what it reads, of a tap the item of the row. -/
def offers (client : Client) (snapshots : List Database) : Action → Option (Key × Price)
  | .selectRow row => (client.tappedItem row).map fun item =>
      (item.uniqueKey, item.highestBidPrice)
  | .detailsEvent screen snapshot => do
      let shown ← client.detailScreens[screen]?
      let db ← snapshots[snapshot]?
      (db.highestbidprice shown.product).map (shown.product, ·)
  | .priceRead read snapshot => do
      let product ← client.priceReads[read]?
      let db ← snapshots[snapshot]?
      (db.highestbidprice product).map (product, ·)
  | _ => none

variable {env : Env} {client client' : Client} {action : Action} {issues : List Issue}

theorem tappedItem_mem {row : Nat} {item : AuctionItem} (h : client.tappedItem row = some item) :
    item ∈ client.heap := by
  simp only [tappedItem, Option.bind_eq_bind, Option.bind_eq_some_iff] at h
  obtain ⟨_, _, _, _, _, _, ref, _, hitem⟩ := h
  exact List.mem_of_getElem? hitem

/-- A price event prices the selected item, if there is one. -/
theorem selectedItem_of_setPrice (client : Client) {price : Price} {item : AuctionItem}
    (hitem : client'.selectedItem = some item)
    (hselected : client'.selectedToViewAuctionItem = client.selectedToViewAuctionItem)
    (hheap : client'.heap = client.heap.setPrice client.selectedToViewAuctionItem price) :
    ∃ old, client.selectedItem = some old ∧ item = { old with highestBidPrice := price } := by
  rw [selectedItem, hselected, hheap] at hitem
  obtain ⟨ref, href, hget⟩ := Option.bind_eq_some_iff.mp hitem
  simp only [href, Heap.setPrice, List.getElem?_modify, if_true, Option.map_eq_map,
    Option.map_eq_some_iff] at hget
  obtain ⟨old, hold, rfl⟩ := hget
  exact ⟨old, by simp [selectedItem, href, hold], rfl⟩

/-- Where the selected item of a client comes from: it was selected and is as it
was, or its row has been tapped, or a price event has priced it. -/
theorem act_selected (hsound : client.Sound)
    (h : client.act env action = some (.done client' issues)) {item : AuctionItem}
    (hitem : client'.selectedItem = some item) :
    client.selectedItem = some item ∨
    (∃ row, action = .selectRow row ∧ client.tappedItem row = some item) ∨
    ∃ product price old, client.PriceEvent action product ∧
      client.offers env.snapshots action = some (product, price) ∧
      (∃ db ∈ env.snapshots, db.highestbidprice product = some price) ∧
      client.selectedItem = some old ∧ item = { old with highestBidPrice := price } := by
  cases act_effect h with
  | pushed row bar screen list ref tapped hbar hvisible hlist href htapped =>
      have htap : client.tappedItem row = some tapped := by
        simp [tappedItem, hbar, hvisible, hlist, href, htapped]
      unfold pushDetails at hitem
      split at hitem
      iterate 3
        obtain rfl : tapped = item := by simpa [selectedItem, htapped] using hitem
        exact .inr (.inl ⟨row, rfl, htap⟩)
      exact .inl hitem
  | listed =>
      refine .inl ?_
      obtain ⟨ref, href, hget⟩ := Option.bind_eq_some_iff.mp hitem
      obtain ⟨kept, hkept⟩ := hsound.selected ref href
      have hlt := (List.getElem?_eq_some_iff.mp hkept).1
      have hget' : (client.heap ++ _)[ref]? = some item := hget
      rw [List.getElem?_append_left hlt] at hget'
      exact Option.bind_eq_some_iff.mpr ⟨ref, href, hget'⟩
  | priced screen snapshot shown db price _ hshown hdb hprice =>
      obtain ⟨old, hold, rfl⟩ := selectedItem_of_setPrice client hitem rfl rfl
      refine .inr (.inr ⟨shown.product, price, old,
        .inl ⟨screen, snapshot, shown, rfl, hshown, rfl⟩, ?_,
        ⟨db, List.mem_of_getElem? hdb, hprice⟩, hold, rfl⟩)
      simp [offers, hshown, hdb, hprice]
  | priceRead read snapshot product db price hproduct hdb hprice =>
      obtain ⟨old, hold, rfl⟩ := selectedItem_of_setPrice client hitem rfl rfl
      refine .inr (.inr ⟨product, price, old, .inr ⟨read, snapshot, rfl, hproduct⟩, ?_,
        ⟨db, List.mem_of_getElem? hdb, hprice⟩, hold, rfl⟩)
      simp [offers, hproduct, hdb, hprice]
  | _ => exact .inl hitem

end Client

namespace EchoSystem

/-- The app has given the product this price, by a bid or by opening the auction,
and the write is still on its way. -/
def OnWay (e : EchoSystem) (c : ClientId) (product : Key) (price : Price) : Prop :=
  ∃ sent ∈ e.system.wire, sent.1 = c ∧ sent.2.Sets (product, .highestbidprice) (.number price)

instance (e : EchoSystem) (c : ClientId) (product : Key) (price : Price) :
    Decidable (e.OnWay c product price) :=
  inferInstanceAs (Decidable (∃ sent ∈ e.system.wire, _))

/-- The price is one that the product has had, or is on its way to it. -/
def Known (e : EchoSystem) (c : ClientId) (product : Key) (price : Price) : Prop :=
  (∃ db ∈ e.system.states, db.highestbidprice product = some price) ∨ e.OnWay c product price

/-- No event puts a price before the user that is still on its way. -/
def PricesArrived (e : EchoSystem) : Label → Prop
  | .act c action => ∀ offer ∈ (e.system.client c).offers (e.snapshots c) action,
      ¬ e.OnWay c offer.1 offer.2
  | _ => True

instance (e : EchoSystem) : ∀ l, Decidable (e.PricesArrived l)
  | .act c action =>
      inferInstanceAs (Decidable (∀ offer ∈ (e.system.client c).offers (e.snapshots c) action, _))
  | .tick _ => isTrue trivial
  | .deliver _ => isTrue trivial

/-- A price event runs while its own product is selected, and neither it nor the
tap of a row shows a price that is still on its way. -/
def OwnPrices (e : EchoSystem) (l : Label) : Prop :=
  e.system.PricesSelected l ∧ e.PricesArrived l

instance (e : EchoSystem) (l : Label) : Decidable (e.OwnPrices l) :=
  inferInstanceAs (Decidable (_ ∧ _))

variable {world : World} {ok : EchoSystem → Label → Prop} {now : Date} {e e' : EchoSystem}
  {l : Label} {c : ClientId} {product : Key} {price : Price}

/-- What is on its way arrives, and what has arrived is not forgotten. -/
theorem Known.step (h : e.Known c product price) (hstep : e.step world l = some e') :
    e'.Known c product price := by
  rcases step_cases hstep with ⟨_, _, rfl⟩ | ⟨sender, net, _, hnet, rfl⟩ | ⟨_, _, _, _, rfl⟩ |
    ⟨actor, action, client, issues, _, _, rfl⟩
  · exact h
  · rcases h with ⟨db, hdb, hprice⟩ | ⟨⟨owner, issue⟩, hwire, rfl, hsets⟩
    · exact .inl ⟨db, Outbox.Net.mem_states_of_deliver hnet hdb, hprice⟩
    · rcases Outbox.Net.mem_wire_of_deliver hnet hwire with hleft | ⟨_, happlied⟩
      · exact .inr ⟨(owner, issue), hleft, rfl, hsets⟩
      · refine .inl ⟨net.db, Outbox.Net.db_mem_states net, ?_⟩
        rw [happlied]
        exact Database.highestbidprice_eq_some.mpr (Issue.productField_of_sets hsets _)
  · exact h
  · rcases h with hheld | ⟨sent, hwire, howner, hsets⟩
    · exact .inl hheld
    · exact .inr ⟨sent, List.mem_append_left _ hwire, howner, hsets⟩

/-- The price that an app is shown is a number that the product has had or that
the app has on its way. -/
theorem known_of_shown (h : ReachesUnder world ok now e) {db : Database}
    (hdb : db ∈ e.snapshots c) {value : Value}
    (hvalue : db.productField product .highestbidprice = some value) :
    ∃ price, value = .number price ∧ e.Known c product price := by
  rcases shown_written (fun db (cell : Key × ProductField) => db.productField cell.1 cell.2)
    (a := (product, .highestbidprice)) Issue.sets_or_kept hdb hvalue
    with ⟨issue, hsent, hsets⟩ | ⟨base, hbase, hheld⟩
  · obtain ⟨price, rfl⟩ :=
      (shaped h issue ((accounted h).issued c issue hsent)).price product value hsets
    refine ⟨price, rfl, ?_⟩
    rcases (accounted h).settled c issue hsent with hwire | ⟨before, hafter⟩
    · exact .inr ⟨(c, issue), hwire, rfl, hsets⟩
    · exact .inl ⟨_, hafter, Database.highestbidprice_eq_some.mpr
        (Issue.productField_of_sets hsets before)⟩
  · obtain ⟨issue, hissued, hsets⟩ := field_written h base hbase _ _ hheld
    obtain ⟨price, rfl⟩ := (shaped h issue hissued).price product value hsets
    exact ⟨price, rfl, .inl ⟨base, hbase, Database.highestbidprice_eq_some.mpr hheld⟩⟩

/-- While price events run with their own product selected, every item of every
client shows a price of its product, or one that is on its way to it. -/
theorem items_known (h : ReachesUnder world ok now e)
    (hselected : ∀ e l, ok e l → e.system.PricesSelected l) (c : ClientId) :
    ∀ item ∈ (e.system.client c).heap, e.Known c item.uniqueKey item.highestBidPrice := by
  refine h.invariant (fun e => ∀ item ∈ (e.system.client c).heap,
    e.Known c item.uniqueKey item.highestBidPrice) (fun item hitem => by cases hitem) ?_
  intro e l e' hprior hinv hok htaken item hitem
  refine Known.step ?_ htaken
  rcases step_client htaken c with heq | heq | ⟨action, issues, rfl, hact⟩
  · exact hinv item (heq ▸ hitem)
  · rw [heq] at hitem
    exact hinv item hitem
  · refine Client.act_items (fun item => e.Known c item.uniqueKey item.highestBidPrice) hact hinv
      ?_ ?_ item hitem
    · intro db hdb item record hrecord hread
      obtain ⟨value, hvalue, hdescribed⟩ := hread.highestbidprice
      obtain ⟨price, rfl, hknown⟩ := known_of_shown hprior hdb
        (Database.productField_eq_some.mpr ⟨record, hrecord, hvalue⟩)
      obtain rfl := Option.some.inj hdescribed
      exact hknown
    · intro db hdb product price item hevent hprice hitem _
      obtain rfl : item.uniqueKey = product :=
        System.selected_of_price (hselected _ _ hok) hevent hitem
      obtain ⟨price', heq, hknown⟩ :=
        known_of_shown hprior hdb (Database.highestbidprice_eq_some.mp hprice)
      obtain rfl := Value.number.inj heq
      exact hknown

/-- Of what is known, what is offered when it has arrived has been held. -/
theorem held_of_offer {action : Action} (harrived : e.PricesArrived (.act c action))
    (hoffer : (e.system.client c).offers (e.snapshots c) action = some (product, price))
    (h : e.Known c product price) :
    ∃ db ∈ e.system.states, db.highestbidprice product = some price :=
  h.resolve_right (harrived (product, price) hoffer)

/-- One event: the selected item was one of the app before, or has been tapped,
or has been priced. -/
theorem selected_held_act (h : ReachesUnder world OwnPrices now e) {action : Action}
    {client : Client} {issues : List Issue} (hok : e.OwnPrices (.act c action))
    (hact : (e.system.client c).act (e.env world c (action.ends e.system.now)) action =
      some (.done client issues))
    (hinv : ∀ item ∈ (e.system.client c).selectedItem, item.PriceHeld e.system.states) :
    ∀ item ∈ client.selectedItem, item.PriceHeld e.system.states := by
  intro item hitem
  have hsound := (client_reachable h c).sound
  have hknown := items_known h (fun _ _ hown => hown.1) c
  rcases Client.act_selected hsound hact hitem with hsame | ⟨row, rfl, htapped⟩ |
    ⟨product, price, old, hevent, hoffer, ⟨db, hdb, hprice⟩, hold, rfl⟩
  · exact hinv item hsame
  · refine held_of_offer hok.2 ?_ (hknown item (Client.tappedItem_mem htapped))
    simp [Client.offers, htapped]
  · obtain rfl : old.uniqueKey = product := System.selected_of_price hok.1 hevent hold
    obtain ⟨price', heq, hknown⟩ :=
      known_of_shown h hdb (Database.highestbidprice_eq_some.mp hprice)
    obtain rfl := Value.number.inj heq
    exact held_of_offer hok.2 hoffer hknown

/-- While price events run with their own product selected, and neither they nor
the rows that are tapped show a price that is still on its way, the price of the
selected item is one that the database has held for that product. -/
theorem holds_own_prices (h : ReachesUnder world OwnPrices now e) :
    e.system.HoldsOwnPrices := by
  refine h.invariant (fun e => e.system.HoldsOwnPrices) (fun c item hitem => by cases hitem) ?_
  intro e l e' hprior hinv hok htaken c item hitem
  refine AuctionItem.PriceHeld.mono (fun _ => step_states htaken) ?_
  rcases step_client htaken c with heq | heq | ⟨action, issues, rfl, hact⟩
  · exact hinv c item (heq ▸ hitem)
  · rw [heq] at hitem
    exact hinv c item hitem
  · exact selected_held_act hprior hok hact (hinv c) item hitem

/-- Amy bids on the lamp. When the bid has arrived her observer shows it to her
twice: on top of a state that it is not in, and as a bare state. -/
def ownPriceShown : List Label :=
  Scenario.lampOpened ++ Scenario.openFirst 1 4 ++
    [.act 1 (.bidSubmit "20"), .deliver 1, .deliver 1, .act 1 (.detailsEvent 0 18),
      .act 1 (.detailsEvent 0 6)]

theorem holds_own_prices_of_bid :
    ∃ e, ReachesUnder Scenario.world OwnPrices Scenario.opening e ∧
      (∃ item ∈ (e.system.client 1).selectedItem, item.uniqueKey = Scenario.lamp ∧
        item.highestBidPrice = 20) ∧ e.system.HoldsOwnPrices := by
  obtain ⟨e, hreach, hitem⟩ : ∃ e, ReachesUnder Scenario.world OwnPrices
      Scenario.opening e ∧ ∃ item ∈ (e.system.client 1).selectedItem,
        item.uniqueKey = Scenario.lamp ∧ item.highestBidPrice = 20 :=
    Machine.exists_reaches ownPriceShown (by decide +kernel) (by decide +kernel)
  exact ⟨e, hreach, hitem, holds_own_prices hreach⟩

/-- Before it has arrived, it is a price that the lamp has never had. -/
example : ∃ e ∈ Machine.run (step Scenario.world) (start Scenario.opening)
    (Scenario.lampOpened ++ Scenario.openFirst 1 4 ++
      [.act 1 (.bidSubmit "20"), .act 1 (.detailsEvent 0 14)]),
    (∃ item ∈ (e.system.client 1).selectedItem, item.highestBidPrice = 20) ∧
      ∀ db ∈ e.system.states, db.highestbidprice Scenario.lamp ≠ some 20 := by
  decide +kernel

/-- Amy has looked at the lamp and gone on to the desk when Bob bids on the
lamp. -/
def priceOfAnother : List Label :=
  Scenario.deskOpened ++
    [.act 1 (.productsEvent 0 5), .act 1 (.selectRow 1), .act 1 (.detailsEvent 0 5),
      .act 1 .popDetails, .act 1 (.selectRow 0), .act 1 (.detailsEvent 1 5),
      .act 2 (.productsEvent 0 5), .act 2 (.selectRow 1), .act 2 (.detailsEvent 0 5),
      .act 2 (.bidSubmit "20"), .deliver 2, .deliver 2, .act 1 (.detailsEvent 0 7)]

theorem not_holds_own_prices :
    ¬ ∀ (world : World) (now : Date) (e : EchoSystem), Reachable world now e →
      e.system.HoldsOwnPrices := by
  intro hholds
  obtain ⟨e, hreach, ⟨item, hitem, hkey, hprice⟩, hnever⟩ :
      ∃ e, Reachable Scenario.world Scenario.opening e ∧
        (∃ item ∈ (e.system.client 1).selectedItem, item.uniqueKey = Scenario.desk ∧
          item.highestBidPrice = 20) ∧
        ∀ db ∈ e.system.states, db.highestbidprice Scenario.desk ≠ some 20 :=
    Machine.exists_reachable priceOfAnother (by decide +kernel)
  obtain ⟨db, hdb, hheld⟩ := hholds _ _ e hreach 1 item hitem
  rw [hkey, hprice] at hheld
  exact hnever db hdb hheld

end EchoSystem

end Auctioneer
