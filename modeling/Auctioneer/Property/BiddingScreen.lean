import Auctioneer.Model.AmountField
import Auctioneer.Proof.ClientRuns
import Auctioneer.Property.AmountFilter

/-!
When the bidding screen traps: its observer, which also runs after the screen has
been popped, casts what a snapshot of the product holds, and a press unwraps
`minimumBid!`, which only the observer sets.
-/

namespace Auctioneer

namespace HomeFeedDetailsViewController

/-- The observer casts the bidder and the price of the snapshot, and nothing else
that can fail. -/
theorem livePriceUpdate_isSome_iff {snapshot : Option ProductRecord} {selected : Option Ref}
    {heap : Heap} {screen : Screen} {item : AuctionItem}
    (hcaptured : heap[screen.thisAuctionItem]? = some item) :
    (livePriceUpdate snapshot selected heap screen).isSome ↔
      ∃ value, snapshot = some value ∧ (castString (value .highestbidder)).isSome ∧
        (castDouble (value .highestbidprice)).isSome := by
  rcases snapshot with _ | value
  · simp [livePriceUpdate]
  cases hbidder : castString (value .highestbidder) with
  | none => simp [livePriceUpdate, hbidder]
  | some bidder =>
      cases hprice : castDouble (value .highestbidprice) with
      | none => simp [livePriceUpdate, hprice]
      | some price =>
          obtain ⟨price', hkept⟩ := Heap.setPrice_kept hcaptured selected price
          simp [livePriceUpdate, hbidder, hprice, hkept]

end HomeFeedDetailsViewController

open HomeFeedDetailsViewController

namespace Client

/-- The event can happen to the client. -/
def Happens (client : Client) (event : Env × Action) : Prop :=
  (client.step event).isSome

/-- No cast and no unwrap of the bidding screen fails in the event: not in the
observer of a screen, on top or popped, and not in a press with a text that the
field can hold. (A press may still end in the exception of `setValue`, which is
neither: `bidSubmit_eq_none_iff` tells the two apart.) -/
def NeverTraps (graphemes : Graphemes) (client : Client) (event : Env × Action) : Prop :=
  client.Happens event → match event.2 with
  | .detailsEvent screen snapshot =>
      ∀ shown db, client.detailScreens[screen]? = some shown →
        event.1.snapshots[snapshot]? = some db →
        (livePriceUpdate (db.products.lookup shown.product) client.selectedToViewAuctionItem
          client.heap shown).isSome
  | .bidSubmit text =>
      Holds graphemes text → ∀ bar screen shown, client.tabBar = some bar →
        bar.homeFeedDetails = some screen → client.detailScreens[screen]? = some shown →
        unwraps client.selectedItem client.signedInUserName shown.minimumBid text
          event.1.now = true
  | _ => True

/-- The snapshot still has the product, with its bidder and its price. A press
before the first snapshot is on an own item, or has a text, and then the auction
is closed or the amount passes the price test. -/
def BidsInTime (graphemes : Graphemes) (client : Client) (event : Env × Action) : Prop :=
  client.Happens event → match event.2 with
  | .detailsEvent screen snapshot =>
      ∀ shown db, client.detailScreens[screen]? = some shown →
        event.1.snapshots[snapshot]? = some db →
        ∃ value, db.products.lookup shown.product = some value ∧
          (castString (value .highestbidder)).isSome ∧
          (castDouble (value .highestbidprice)).isSome
  | .bidSubmit text =>
      Holds graphemes text → ∀ bar screen shown, client.tabBar = some bar →
        bar.homeFeedDetails = some screen → client.detailScreens[screen]? = some shown →
        shown.minimumBid = none →
        ∀ item userName, client.selectedItem = some item →
          client.signedInUserName = some userName →
          item.openedBy = userName ∨ text ≠ "" ∧
            (Date.isBetween event.1.now item.openDate item.closeDate = false ∨
              ∃ amount ∈ Double.ofText text, passesPriceTest item amount = true)
  | _ => True

variable {graphemes : Graphemes} {client : Client} {event : Env × Action}

/-- A press on a screen that is there, with a text that is empty or a number. -/
theorem unwraps_iff {item : AuctionItem} {userName text : String} {minimumBid : Option Price}
    {now : Date} (htext : text = "" ∨ (Double.ofText text).isSome) :
    unwraps (some item) (some userName) minimumBid text now = true ↔
      (minimumBid = none → item.openedBy = userName ∨ text ≠ "" ∧
        (Date.isBetween now item.openDate item.closeDate = false ∨
          ∃ amount ∈ Double.ofText text, passesPriceTest item amount = true)) := by
  by_cases hown : item.openedBy = userName
  · simp [unwraps, hown]
  by_cases hempty : text = ""
  · cases minimumBid <;> simp [unwraps, hown, hempty]
  obtain ⟨amount, hamount⟩ := Option.isSome_iff_exists.mp (htext.resolve_left hempty)
  cases hopen : Date.isBetween now item.openDate item.closeDate with
  | false => simp [unwraps, hown, hempty, hopen]
  | true => cases minimumBid <;> simp [unwraps, hown, hempty, hopen, hamount]

theorem neverTraps_iff (h : Reachable client) :
    client.NeverTraps graphemes event ↔ client.BidsInTime graphemes event := by
  have hsound := h.sound
  refine imp_congr_right fun _ => ?_
  obtain ⟨env, action⟩ := event
  cases action with
  | detailsEvent screen snapshot =>
      refine forall₄_congr fun shown db hshown _ => ?_
      obtain ⟨item, hitem, _⟩ := hsound.captured shown (List.mem_of_getElem? hshown)
      exact livePriceUpdate_isSome_iff hitem
  | bidSubmit text =>
      refine forall_congr' fun hholds => forall₄_congr fun bar screen shown hbar => ?_
      refine forall_congr' fun hscreen => forall_congr' fun hshown => ?_
      obtain ⟨userName, huser⟩ := Option.isSome_iff_exists.mp (hsound.session bar hbar)
      obtain ⟨ref, href⟩ := Option.isSome_iff_exists.mp
        (hsound.chosen bar hbar (by simp [hscreen]))
      obtain ⟨item, hget⟩ := hsound.selected ref href
      have hitem : client.selectedItem = some item := by simp [selectedItem, href, hget]
      simp [hitem, huser, unwraps_iff hholds.number]
  | _ => exact Iff.rfl

/-- A run is free of traps of the bidding screen exactly when every snapshot and
every press of it come in time. -/
theorem bidding_never_traps_iff (graphemes : Graphemes) (events : List (Env × Action)) :
    Machine.Along step (NeverTraps graphemes) .launch events ↔
      Machine.Along step (BidsInTime graphemes) .launch events :=
  Machine.along_iff (fun _ _ h => neverTraps_iff h) events

/-- The snapshots of a server from which the lamp is then removed. -/
def lampRemoved : Env where
  zone := TimeZone.fixed 480
  now := Scenario.opening
  later := Scenario.opening
  snapshots := [Scenario.lampAndAmy, (Write.removeProduct 0).apply Scenario.lampAndAmy]
  freshKey := 2

/-- Amy signs in and opens the lamp from her Feed. -/
def lampOnScreen : List (Env × Action) :=
  [(lampRemoved, .login 0 "amy" "q"), (lampRemoved, .productsEvent 0 0),
    (lampRemoved, .selectRow 0)]

/-- The observer is told that the lamp has been removed. -/
theorem not_bidding_never_traps :
    ¬ ∀ (graphemes : Graphemes) (events : List (Env × Action)),
      Machine.Along step (NeverTraps graphemes) .launch events := by
  intro hnever
  obtain ⟨client, hrun, hhappens, shown, hshown, hproduct⟩ :
      ∃ client ∈ Machine.run step .launch lampOnScreen,
        client.Happens (lampRemoved, .detailsEvent 0 1) ∧
        ∃ shown ∈ client.detailScreens[0]?, shown.product = 0 := by
    unfold Happens
    decide +kernel
  have hsafe := (hnever Graphemes.scalars
    (lampOnScreen ++ [(lampRemoved, .detailsEvent 0 1)])).last hrun
  have hgone : ((Write.removeProduct 0).apply Scenario.lampAndAmy).products.lookup 0 = none := by
    decide +kernel
  have htrap := hsafe hhappens shown _ hshown rfl
  rw [hproduct, hgone] at htrap
  cases htrap

end Client

end Auctioneer
