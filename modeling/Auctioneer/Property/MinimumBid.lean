import Auctioneer.Proof.ClientRuns
import Auctioneer.Proof.Records

/-!
The minimum that a details screen shows and the one that a bid has to reach. The
observer computes `minimumBid` from the item the screen was opened on, after it has
written the price to the item selected then; the press tests the item selected last,
and asks for more than the highest bid once that is not below the starting price.
-/

namespace Auctioneer

open HomeFeedDetailsViewController

/-- The price test is "not below the minimum" exactly for an item without a bid
that reaches the starting price. -/
theorem passesPriceTest_eq_le_iff (item : AuctionItem) (minimum : Price) :
    (∀ amount, passesPriceTest item amount = Double.le (.finite minimum) amount) ↔
      item.highestBidPrice < item.startingPrice ∧ item.startingPrice = minimum := by
  constructor
  · intro htest
    by_cases hbelow : item.highestBidPrice < item.startingPrice
    · have hle := htest (.finite minimum)
      have hge := htest (.finite item.startingPrice)
      simp only [passesPriceTest, hbelow, if_true, Double.finite_le_finite] at hle hge
      simp at hle hge
      exact ⟨hbelow, le_antisymm hle hge⟩
    · have habove : ∀ amount : Price, item.highestBidPrice < amount ↔ minimum ≤ amount := by
        intro amount
        simpa [passesPriceTest, hbelow] using htest (.finite amount)
      have hlt := (habove minimum).mpr le_rfl
      have hmiddle := (habove ((item.highestBidPrice + minimum) / 2)).mp (by linarith)
      linarith
  · rintro ⟨hbelow, rfl⟩ amount
    simp [passesPriceTest, hbelow]

/-- A price is written to the item that is selected. -/
theorem Heap.getElem?_setPrice (heap : Heap) (selected : Option Ref) (price : Price)
    (ref : Ref) :
    (heap.setPrice selected price)[ref]? = heap[ref]?.map fun item =>
      { item with
        highestBidPrice := if selected = some ref then price else item.highestBidPrice } := by
  cases selected with
  | none => simp [Heap.setPrice]
  | some changed =>
      by_cases heq : changed = ref
      · simp [Heap.setPrice, heq]
      · simp [Heap.setPrice, heq]

namespace Client

/-- The screen shows the minimum, and a bid on the selected item, if that is of its
product, passes the price test exactly when it is not below it. -/
def EnforcesMinimum (client : Client) (screen : Nat) (minimum : Price) : Prop :=
  ∃ shown, client.detailScreens[screen]? = some shown ∧ shown.minimumBid = some minimum ∧
    ∀ item, client.selectedItem = some item → item.uniqueKey = shown.product →
      ∀ amount, passesPriceTest item amount = Double.le (.finite minimum) amount

/-- The observer writes the price to the item that the screen was opened on, or
that item makes the same minimum with the price it has. -/
def WritesOwnItem (client : Client) (shown : Screen) (starting price : Price) : Prop :=
  client.selectedToViewAuctionItem = some shown.thisAuctionItem ∨
    ∃ item, client.heap[shown.thisAuctionItem]? = some item ∧
      max starting item.highestBidPrice = max starting price

/-- If an item of the product is selected, the product has no price above the
starting price and the item none that reaches it. -/
def BelowStarting (client : Client) (product : Key) (starting price : Price) : Prop :=
  ∀ item, client.selectedItem = some item → item.uniqueKey = product →
    price ≤ starting ∧ item.highestBidPrice < starting

variable {env : Env} {client client' : Client} {action : Action} {issues : List Issue}

/-- Only its own observer changes a details screen. -/
theorem act_screen_kept (h : client.act env action = some (.done client' issues)) {screen : Nat}
    (hother : ∀ snapshot, action ≠ .detailsEvent screen snapshot) {shown : Screen}
    (hshown : client.detailScreens[screen]? = some shown) :
    client'.detailScreens[screen]? = some shown := by
  cases act_effect h with
  | pushed row bar _ _ ref item =>
      unfold pushDetails
      split
      · rw [List.getElem?_append_left (List.getElem?_eq_some_iff.mp hshown).1, hshown]
      all_goals exact hshown
  | priced changed snapshot =>
      have hne : changed ≠ screen := fun heq => hother snapshot (heq ▸ rfl)
      rw [List.getElem?_set_ne hne, hshown]
  | _ => exact hshown

/-- The observer, told of a price and a bidder. -/
theorem act_detailsEvent {screen snapshot : Nat} {shown : Screen} {db : Database}
    {item : AuctionItem} {price : Price} (hrunning : client.crashed = false)
    (hshown : client.detailScreens[screen]? = some shown)
    (hdb : env.snapshots[snapshot]? = some db)
    (hbidder : (db.highestbidder shown.product).isSome)
    (hprice : db.highestbidprice shown.product = some price)
    (hitem : client.heap[shown.thisAuctionItem]? = some item) :
    client.act env (.detailsEvent screen snapshot) = some (.done
      { client with
        heap := client.heap.setPrice client.selectedToViewAuctionItem price
        detailScreens := client.detailScreens.set screen
          { shown with
            minimumBid := some (max item.startingPrice
              (if client.selectedToViewAuctionItem = some shown.thisAuctionItem then price
                else item.highestBidPrice)) } } []) := by
  obtain ⟨bidder, hbidder⟩ := Option.isSome_iff_exists.mp hbidder
  obtain ⟨record, hrecord, hread⟩ :=
    Database.productField_eq_some.mp (Database.highestbidprice_eq_some.mp hprice)
  have hcast : castString (record .highestbidder) = some bidder := by
    simpa [Database.highestbidder, Database.productField, hrecord] using hbidder
  have hmax : ∀ starting price : Price, (if price < starting then starting else price) =
      max starting price := fun starting price => by rw [max_comm, max_def_lt]
  simp [act, detailsEvent, livePriceUpdate, hrunning, hshown, hdb, hrecord, hread, hcast,
    castDouble_eq_some.mpr, Heap.getElem?_setPrice, hitem, Reaction.orCrash, hmax]

end Client

namespace System

variable {world : World} {now : Date} {s s' u : System} {c : ClientId} {screen : Nat}
  {shown : Screen} {starting price : Price}

/-- The observer of a details screen is told of a state of its product. -/
structure Told (world : World) (s : System) (c : ClientId) (screen : Nat) (shown : Screen)
    (starting price : Price) (s' : System) : Prop where
  there : (s.client c).detailScreens[screen]? = some shown
  told : ∃ snapshot db, s.states[snapshot]? = some db ∧
    db.productField shown.product .startingprice = some (.number starting) ∧
    db.highestbidprice shown.product = some price ∧ (db.highestbidder shown.product).isSome ∧
    s.step world (.act c (.detailsEvent screen snapshot)) = some s'

/-- The event is any but another snapshot for the screen. -/
def Unheard (c : ClientId) (screen : Nat) (_ : System) (l : Label) : Prop :=
  ∀ snapshot, l ≠ .act c (.detailsEvent screen snapshot)

/-- Until its observer runs again, a screen stays as it is. -/
theorem screen_kept (h : Machine.Reaches (step world) (Unheard c screen) s u)
    (hshown : (s.client c).detailScreens[screen]? = some shown) :
    (u.client c).detailScreens[screen]? = some shown := by
  refine h.invariant (fun u => (u.client c).detailScreens[screen]? = some shown) hshown ?_
  intro u l u' _ hkept hok htaken
  rcases step_client htaken c with heq | heq | ⟨action, issues, rfl, hact⟩
  · rwa [heq]
  · rwa [heq]
  · exact Client.act_screen_kept hact (fun snapshot heq => hok snapshot (heq ▸ rfl)) hkept

theorem states_kept (h : Machine.Reaches (step world) (Unheard c screen) s u) {db : Database}
    (hdb : db ∈ s.states) : db ∈ u.states :=
  h.invariant (fun u => db ∈ u.states) hdb fun _ _ _ _ hkept _ htaken => step_states htaken hkept

/-- Items of a product show its starting price. -/
theorem startingPrice_eq (h : Reachable world now s) {item : AuctionItem}
    (hitem : item ∈ (s.client c).heap) {db : Database} (hdb : db ∈ s.states)
    (hstarting : db.productField item.uniqueKey .startingprice = some (.number starting)) :
    item.startingPrice = starting := by
  obtain ⟨source, hsource, record, hrecord, hdescribes⟩ := item_sourced h c item hitem
  have hfield : source.productField item.uniqueKey .startingprice =
      some (.number item.startingPrice) :=
    Database.productField_eq_some.mpr ⟨record, hrecord, hdescribes.startingprice⟩
  have hsame := field_static h hsource hdb (by decide) (by decide) hfield hstarting
  exact Value.number.inj hsame

/-- The minimum that the screen shows after its observer has run. -/
theorem Told.minimumBid (htold : Told world s c screen shown starting price s')
    (h : Reachable world now s) :
    ∃ item, (s.client c).heap[shown.thisAuctionItem]? = some item ∧
      (s'.client c).detailScreens[screen]? = some
        { shown with
          minimumBid := some (max starting
            (if (s.client c).selectedToViewAuctionItem = some shown.thisAuctionItem then price
              else item.highestBidPrice)) } := by
  obtain ⟨hshown, snapshot, db, hdb, hstarting, hprice, hbidder, hstep⟩ := htold
  obtain ⟨item, hitem, hkey⟩ :=
    (client_reachable h c).sound.captured shown (List.mem_of_getElem? hshown)
  have hitemStarting : item.startingPrice = starting :=
    startingPrice_eq h (List.mem_of_getElem? hitem) (List.mem_of_getElem? hdb) (hkey ▸ hstarting)
  have hlt := (List.getElem?_eq_some_iff.mp hshown).1
  have hrunning : (s.client c).crashed = false := by
    by_contra hcrashed
    simp [step, Client.act, hcrashed] at hstep
  have hact : (s.client c).act (s.env world c s.now) (.detailsEvent screen snapshot) = _ :=
    Client.act_detailsEvent hrunning hshown hdb hbidder hprice hitem
  obtain rfl : s.react c s.now _ = s' := by
    simpa [step, Action.ends, hact] using hstep
  refine ⟨item, hitem, ?_⟩
  simp [List.getElem?_set_self hlt, hitemStarting]

/-- The minimum shown is the one of the latest snapshot and the one enforced
exactly when the snapshot was written to the item of the screen and, should an
item of the product be selected, nobody has reached the starting price. -/
theorem minimum_enforced_iff (h : Reachable world now s)
    (htold : Told world s c screen shown starting price s')
    (hlater : Machine.Reaches (step world) (Unheard c screen) s' u) :
    (u.client c).EnforcesMinimum screen (max starting price) ↔
      (s.client c).WritesOwnItem shown starting price ∧
        (u.client c).BelowStarting shown.product starting price := by
  obtain ⟨captured, hcaptured, hminimum⟩ := htold.minimumBid h
  have hscreen := screen_kept hlater hminimum
  obtain ⟨_, snapshot, db, hdb, hstarting, _, _, hstep⟩ := htold
  have hu : Reachable world now u := (Machine.Reaches.step h trivial hstep).trans hlater.reachable
  have hshown : some (max starting
      (if (s.client c).selectedToViewAuctionItem = some shown.thisAuctionItem then price
        else captured.highestBidPrice)) = some (max starting price) ↔
      (s.client c).WritesOwnItem shown starting price := by
    by_cases hown : (s.client c).selectedToViewAuctionItem = some shown.thisAuctionItem
    · simp [Client.WritesOwnItem, hown]
    · simp [Client.WritesOwnItem, hown, hcaptured]
  have henforced : ∀ item, (u.client c).selectedItem = some item →
      item.uniqueKey = shown.product →
      ((∀ amount, passesPriceTest item amount =
          Double.le (.finite (max starting price)) amount) ↔
        price ≤ starting ∧ item.highestBidPrice < starting) := by
    intro item hitem hkey
    have hsame : item.startingPrice = starting :=
      startingPrice_eq hu (Client.selectedItem_mem hitem)
        (states_kept hlater (step_states hstep (List.mem_of_getElem? hdb))) (hkey ▸ hstarting)
    rw [passesPriceTest_eq_le_iff, hsame, and_comm, eq_comm, max_eq_left_iff]
  simp only [Client.EnforcesMinimum, hscreen, Option.some.injEq, exists_eq_left', hshown,
    Client.BelowStarting]
  exact and_congr_right fun _ => forall₃_congr henforced

/-- Amy opens the lamp from her feed. -/
def lampShown : List Label :=
  Scenario.lampOpened ++ [.act 1 (.productsEvent 0 4), .act 1 (.selectRow 0)]

/-- Before the first bid the screen shows the starting price, which is enforced. -/
theorem minimum_enforced_of_lamp :
    ∃ s s', Reachable Scenario.world Scenario.opening s ∧
      (∃ shown, Told Scenario.world s 1 0 shown 10 0 s') ∧ (s'.client 1).EnforcesMinimum 0 10 := by
  obtain ⟨s, hreach, shown, hshown, hproduct, db, hdb, hstarting, hprice, hbidder, s', hstep,
      hselected, hprices⟩ :
      ∃ s, Reachable Scenario.world Scenario.opening s ∧
        ∃ shown ∈ (s.client 1).detailScreens[0]?, shown.product = Scenario.lamp ∧
        ∃ db ∈ s.states[4]?,
          db.productField Scenario.lamp .startingprice = some (.number 10) ∧
          db.highestbidprice Scenario.lamp = some 0 ∧
          (db.highestbidder Scenario.lamp).isSome ∧
          ∃ s' ∈ s.step Scenario.world (.act 1 (.detailsEvent 0 4)),
            (s.client 1).selectedToViewAuctionItem = some shown.thisAuctionItem ∧
            ∀ item ∈ (s'.client 1).selectedItem, item.highestBidPrice = 0 :=
    Machine.exists_reachable lampShown (by decide +kernel)
  rw [← hproduct] at hstarting hprice hbidder
  have htold : Told Scenario.world s 1 0 shown 10 0 s' :=
    ⟨hshown, 4, db, hdb, hstarting, hprice, hbidder, hstep⟩
  refine ⟨s, s', hreach, ⟨shown, htold⟩, ?_⟩
  refine (minimum_enforced_iff hreach htold .refl).mpr ⟨.inl hselected, ?_⟩
  intro item hitem _
  rw [hprices item hitem]
  exact ⟨by decide, by decide⟩

/-- Amy has the lamp open when her bid of 20 comes back to her: the minimum shown
is 20, and 20 is refused. -/
theorem not_minimum_enforced :
    ¬ ∀ (world : World) (now : Date) (s s' u : System) (c : ClientId) (screen : Nat)
      (shown : Screen) (starting price : Price), Reachable world now s →
      Told world s c screen shown starting price s' →
      Machine.Reaches (step world) (Unheard c screen) s' u →
      (u.client c).EnforcesMinimum screen (max starting price) := by
  intro henforces
  obtain ⟨s, hreach, shown, hshown, hproduct, db, hdb, hstarting, hprice, hbidder, s', hstep,
      item, hitem, hkey, hrefused⟩ :
      ∃ s, Reachable Scenario.world Scenario.opening s ∧
        ∃ shown ∈ (s.client 1).detailScreens[0]?, shown.product = Scenario.lamp ∧
        ∃ db ∈ s.states[6]?,
          db.productField Scenario.lamp .startingprice = some (.number 10) ∧
          db.highestbidprice Scenario.lamp = some 20 ∧
          (db.highestbidder Scenario.lamp).isSome ∧
          ∃ s' ∈ s.step Scenario.world (.act 1 (.detailsEvent 0 6)),
            ∃ item ∈ (s'.client 1).selectedItem, item.uniqueKey = Scenario.lamp ∧
              passesPriceTest item (.finite 20) = false :=
    Machine.exists_reachable (Scenario.lampBid "20") (by decide +kernel)
  rw [← hproduct] at hstarting hprice hbidder hkey
  have htold : Told Scenario.world s 1 0 shown 10 20 s' :=
    ⟨hshown, 6, db, hdb, hstarting, hprice, hbidder, hstep⟩
  obtain ⟨_, hthere, _, htest⟩ := henforces _ _ s s' s' 1 0 shown 10 20 hreach htold .refl
  obtain ⟨_, _, hshown'⟩ := htold.minimumBid hreach
  obtain rfl := Option.some.inj (hshown'.symm.trans hthere)
  have haccepted := htest item hitem hkey (.finite 20)
  rw [hrefused] at haccepted
  exact absurd haccepted (by decide)

end System

end Auctioneer
