import Auctioneer.Library.Ledger
import Auctioneer.Model.System
import Auctioneer.Proof.Items

/-!
Earnings and Spending of one profile screen. The two sums are captured
variables that are set to zero once, and every later snapshot adds to them.
-/

namespace Auctioneer

namespace ProfileViewController

/-- One run of the Products callback. -/
structure Delivery where
  now : Date
  signedIn : Option String
  snapshot : Database

/-- What the screen shows after these deliveries. -/
def shown (zone : TimeZone) (deliveries : List Delivery) : Option Totals :=
  deliveries.foldlM (fun totals d => retrieveData zone d.now d.signedIn d.snapshot totals) ⟨0, 0⟩

/-- An own closed product that has been sold: the highest bid has reached the
starting price, as `Bid_Submit` asks of the first bid. -/
def sold (userName : String) (value : AuctionItem) : Bool :=
  value.openedBy = userName && !value.isnotClosed && value.startingPrice ≤ value.highestBidPrice

/-- An own closed product whose highest bid is exactly the starting price. -/
def soldAtStart (userName : String) (value : AuctionItem) : Bool :=
  value.openedBy = userName && !value.isnotClosed && value.startingPrice = value.highestBidPrice

/-- The totals of one snapshot alone: what the Won list of that snapshot costs,
and what the own sold products bring. -/
def latest (zone : TimeZone) (d : Delivery) : Option Totals := do
  let won ← AuctionWonViewController.retrieveData zone d.now d.signedIn d.snapshot
  let dictionary ← decodeProducts zone d.now d.snapshot
  let own ← keepFor d.signedIn sold dictionary
  some
    { earnings := (own.map (·.highestBidPrice)).sum
      spending := (won.map (·.highestBidPrice)).sum }

/-- The prices of the items of a snapshot that `keep` selects, added up. -/
def prices (keep : String → AuctionItem → Bool) (zone : TimeZone) (d : Delivery) : Price :=
  (((decodeProducts zone d.now d.snapshot).bind (keepFor d.signedIn keep)).getD []).map
    (·.highestBidPrice) |>.sum

/-- What the earlier snapshots left behind in the sums makes no difference: the
items won then add up to nothing, and what was earned then to what the last
snapshot has sold at exactly the starting price. -/
def NothingCarried (zone : TimeZone) (earlier : List Delivery) (d : Delivery) : Prop :=
  (earlier.map (prices wins zone)).sum = 0 ∧
    (earlier.map (prices sells zone)).sum = prices soldAtStart zone d

instance (zone : TimeZone) (earlier : List Delivery) (d : Delivery) :
    Decidable (NothingCarried zone earlier d) :=
  inferInstanceAs (Decidable (_ ∧ _))

variable {zone : TimeZone} {deliveries earlier : List Delivery} {d : Delivery}
  {totals totals' : Totals}

/-- One delivery adds the won and the sold items of its snapshot. -/
theorem retrieveData_eq_some
    (h : retrieveData zone d.now d.signedIn d.snapshot totals = some totals') :
    (∃ dictionary won, decodeProducts zone d.now d.snapshot = some dictionary ∧
      keepFor d.signedIn wins dictionary = some won) ∧
    totals'.earnings = totals.earnings + prices sells zone d ∧
    totals'.spending = totals.spending + prices wins zone d := by
  simp only [retrieveData, Option.bind_eq_bind, Option.bind_eq_some_iff, Option.some.injEq] at h
  obtain ⟨dictionary, hdictionary, won, hwon, own, hown, rfl⟩ := h
  refine ⟨⟨dictionary, won, hdictionary, hwon⟩, ?_, ?_⟩
  · simp [prices, hdictionary, hown]
  · simp [prices, hdictionary, hwon]

/-- The totals after any deliveries add up those of each of them. -/
theorem foldlM_retrieveData (h : deliveries.foldlM
      (fun totals d => retrieveData zone d.now d.signedIn d.snapshot totals) totals =
        some totals') :
    totals'.earnings = totals.earnings + (deliveries.map (prices sells zone)).sum ∧
      totals'.spending = totals.spending + (deliveries.map (prices wins zone)).sum := by
  induction deliveries generalizing totals with
  | nil =>
      obtain rfl : totals = totals' := Option.some.inj h
      simp
  | cons d rest ih =>
      simp only [List.foldlM_cons, Option.bind_eq_bind, Option.bind_eq_some_iff] at h
      obtain ⟨next, hnext, hrest⟩ := h
      obtain ⟨_, hearnings, hspending⟩ := retrieveData_eq_some hnext
      obtain ⟨ihearnings, ihspending⟩ := ih hrest
      simp only [List.map_cons, List.sum_cons]
      exact ⟨by rw [ihearnings, hearnings, add_assoc], by rw [ihspending, hspending, add_assoc]⟩

theorem shown_eq_some (h : shown zone deliveries = some totals) :
    totals.earnings = (deliveries.map (prices sells zone)).sum ∧
      totals.spending = (deliveries.map (prices wins zone)).sum := by
  simpa using foldlM_retrieveData h

/-- The sales of a snapshot are those above the starting price and those at it. -/
theorem prices_sold (hdecodes : (decodeProducts zone d.now d.snapshot).isSome) :
    prices sold zone d = prices sells zone d + prices soldAtStart zone d := by
  obtain ⟨dictionary, hdictionary⟩ := Option.isSome_iff_exists.mp hdecodes
  cases huser : d.signedIn with
  | none =>
      simp only [prices, hdictionary, huser, keepFor, Option.bind_some]
      split <;> simp
  | some userName =>
      simp only [prices, hdictionary, huser, keepFor, Option.bind_some, Option.getD_some]
      refine Ledger.sum_filter_split ?_ ?_ _ dictionary
      · intro value
        simp only [sold, sells, soldAtStart, ← Bool.and_or_distrib_left, ← Bool.decide_or,
          le_iff_lt_or_eq]
      · intro value hsells
        simp only [sells, Bool.and_eq_true, decide_eq_true_eq] at hsells
        simp [soldAtStart, hsells.2.ne]

/-- The profile and the Won screen select alike. -/
theorem wins_eq_keeps : wins = AuctionWonViewController.keeps := rfl

/-- What `latest` computes where the callback runs through. -/
theorem latest_eq
    (h : retrieveData zone d.now d.signedIn d.snapshot totals = some totals') :
    latest zone d = some ⟨prices sold zone d, prices wins zone d⟩ := by
  obtain ⟨⟨dictionary, won, hdictionary, hwon⟩, _⟩ := retrieveData_eq_some h
  have hwins : AuctionWonViewController.retrieveData zone d.now d.signedIn d.snapshot =
      some won := by
    simpa [AuctionWonViewController.retrieveData, hdictionary, ← wins_eq_keeps] using hwon
  have hown : ∃ own, keepFor d.signedIn sold dictionary = some own := by
    cases huser : d.signedIn with
    | some userName => exact ⟨_, rfl⟩
    | none =>
        rw [huser] at hwon
        simp only [keepFor, Option.ite_none_right_eq_some] at hwon
        exact ⟨[], by simp [keepFor, hwon.1]⟩
  obtain ⟨own, hown⟩ := hown
  simp [latest, hwins, hdictionary, hown, prices, hwon]

/-- Amy's profile has the lamp that she won delivered. -/
def lampDelivered : Delivery := ⟨Scenario.closed, some "amy", Scenario.lampSold⟩

end ProfileViewController

end Auctioneer
