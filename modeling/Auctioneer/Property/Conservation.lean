import Auctioneer.Library.Ledger
import Auctioneer.Proof.Bids

/-!
Earnings and Spending. A bid may equal the starting price, but a sale counts as
earned only when its price is above it.
-/

namespace Auctioneer

open HomeFeedDetailsViewController

namespace Database

variable {db : Database}

/-- The names of the registered users, one for each record of Users. -/
def registered (db : Database) : List String :=
  db.users.entries.filterMap fun pairs => castString (pairs.2 .Username)

theorem mem_registered {name : String} :
    name ∈ db.registered ↔ ∃ key, db.username key = some name := by
  simp only [registered, List.mem_filterMap, castString_eq_some, username_eq_some]
  constructor
  · rintro ⟨⟨key, record⟩, hentry, hname⟩
    exact ⟨key, record, mem_entries_iff.mp hentry, hname⟩
  · rintro ⟨key, record, hrecord, hname⟩
    exact ⟨⟨key, record⟩, mem_entries_iff.mpr hrecord, hname⟩

/-- What the profiles of all registered users compute from one snapshot. -/
def profiles (zone : TimeZone) (t : Date) (db : Database) :
    Option (List ProfileViewController.Totals) :=
  db.registered.mapM fun userName =>
    ProfileViewController.retrieveData zone t (some userName) db ⟨0, 0⟩

end Database

/-- All Earnings add up to all Spending. -/
def Balanced (totals : List ProfileViewController.Totals) : Prop :=
  (totals.map (·.earnings)).sum = (totals.map (·.spending)).sum

instance (totals : List ProfileViewController.Totals) : Decidable (Balanced totals) :=
  inferInstanceAs (Decidable (_ = _))

/-- The auction is over and was won at exactly its starting price. -/
def ProductRecord.SoldAtStart (zone : TimeZone) (t : Date) (record : ProductRecord) : Prop :=
  record.ClosedAt zone t ∧ ∃ price ∈ castDouble (record .startingprice),
    castDouble (record .highestbidprice) = some price ∧ 0 < price

def Database.NoneSoldAtStart (zone : TimeZone) (t : Date) (db : Database) : Prop :=
  ∀ key record, db.products.lookup key = some record → ¬ record.SoldAtStart zone t

namespace AuctionItem

/-- The items of closed auctions. -/
def ended (items : List AuctionItem) : List AuctionItem :=
  items.filter fun item => !item.isnotClosed

theorem mem_ended {items : List AuctionItem} {item : AuctionItem} :
    item ∈ ended items ↔ item ∈ items ∧ item.isnotClosed = false := by
  simp [ended]

/-- What an item shows when no write is on its way. -/
structure Settled (db : Database) (item : AuctionItem) : Prop where
  seller : item.openedBy ∈ db.registered
  bought : item.highestBidPrice = 0 ∨ (0 < item.highestBidPrice ∧
    item.startingPrice ≤ item.highestBidPrice ∧ item.highestBidder ∈ db.registered)

end AuctionItem

section Profiles

variable {zone : TimeZone} {t : Date} {db : Database} {items : List AuctionItem}
  {totals : List ProfileViewController.Totals}

/-- The totals of one user. -/
def totalsOf (items : List AuctionItem) (userName : String) : ProfileViewController.Totals where
  earnings := (((AuctionItem.ended items).filter fun item =>
    item.startingPrice < item.highestBidPrice).filter fun item =>
      item.openedBy = userName).map (·.highestBidPrice) |>.sum
  spending := ((AuctionItem.ended items).filter fun item =>
    item.highestBidder = userName).map (·.highestBidPrice) |>.sum

theorem retrieveData_eq (hitems : decodeProducts zone t db = some items) (userName : String) :
    ProfileViewController.retrieveData zone t (some userName) db ⟨0, 0⟩ =
      some (totalsOf items userName) := by
  have hwins : items.filter (ProfileViewController.wins userName) =
      (AuctionItem.ended items).filter fun item => item.highestBidder = userName := by
    rw [AuctionItem.ended, List.filter_filter]
    rfl
  have hsells : items.filter (ProfileViewController.sells userName) =
      ((AuctionItem.ended items).filter fun item =>
        item.startingPrice < item.highestBidPrice).filter fun item =>
          item.openedBy = userName := by
    rw [AuctionItem.ended, List.filter_filter, List.filter_filter]
    refine List.filter_congr fun item _ => ?_
    simp only [ProfileViewController.sells, Bool.and_assoc, Bool.and_comm]
  simp only [ProfileViewController.retrieveData, hitems, keepFor, hwins, hsells,
    Option.bind_eq_bind, Option.bind_some, zero_add, totalsOf]

theorem profiles_eq (hitems : decodeProducts zone t db = some items)
    (htotals : db.profiles zone t = some totals) :
    totals = db.registered.map (totalsOf items) := by
  have hmap := Traverse.mapM_eq_some_iff.mp htotals
  simp only [retrieveData_eq hitems] at hmap
  have hsome : (db.registered.map (totalsOf items)).map some = totals.map some := by
    rw [List.map_map]
    exact hmap
  exact ((List.map_injective_iff.mpr (Option.some_injective _)) hsome).symm

/-- All users together earn the sales above the starting price, and spend the
price of every sale. -/
theorem balanced_iff_sums (hnodup : db.registered.Nodup)
    (hsettled : ∀ item ∈ items, item.Settled db) :
    Balanced (db.registered.map (totalsOf items)) ↔
      ((((AuctionItem.ended items).filter fun item =>
        item.startingPrice < item.highestBidPrice).map (·.highestBidPrice)).sum =
      ((AuctionItem.ended items).map (·.highestBidPrice)).sum) := by
  have hearned : (db.registered.map fun userName => (totalsOf items userName).earnings).sum =
      (((AuctionItem.ended items).filter fun item =>
        item.startingPrice < item.highestBidPrice).map (·.highestBidPrice)).sum := by
    refine Ledger.sum_by_owner hnodup AuctionItem.openedBy AuctionItem.highestBidPrice ?_
    intro item hitem
    exact .inl (hsettled item (AuctionItem.mem_ended.mp (List.mem_filter.mp hitem).1).1).seller
  have hspent : (db.registered.map fun userName => (totalsOf items userName).spending).sum =
      ((AuctionItem.ended items).map (·.highestBidPrice)).sum := by
    refine Ledger.sum_by_owner hnodup AuctionItem.highestBidder AuctionItem.highestBidPrice ?_
    intro item hitem
    rcases (hsettled item (AuctionItem.mem_ended.mp hitem).1).bought with hzero | ⟨_, _, hmem⟩
    · exact .inr hzero
    · exact .inl hmem
  rw [Balanced, List.map_map, List.map_map, ← hearned, ← hspent]
  rfl

end Profiles

namespace System

variable {world : World} {now : Date} {s : System} {zone : TimeZone} {t : Date}

/-- Every item of a snapshot with no write on its way is settled. -/
theorem settled_of_quiet (h : Reachable world now s) (hquiet : s.wire = [])
    {items : List AuctionItem} (hitems : decodeProducts zone t s.db = some items)
    {item : AuctionItem} (hitem : item ∈ items) : item.Settled s.db := by
  obtain ⟨record, hrecord, hread⟩ := exists_of_mem_decodeProducts hitems hitem
  have hfield : ∀ {field value}, record field = some value →
      s.db.productField item.uniqueKey field = some value :=
    fun hvalue => Database.productField_eq_some.mpr ⟨record, hrecord, hvalue⟩
  have hnow : s.db ∈ s.states := Outbox.Net.db_mem_states _
  refine ⟨?_, ?_⟩
  · obtain ⟨created, hcreated, hopener⟩ :=
      field_created h hnow (by simp) (by simp) (hfield hread.openby)
    obtain ⟨_, _, _, opener, _, hregistered, rfl⟩ := created_form h hcreated
    obtain rfl : opener = item.openedBy := Value.string.inj (Option.some.inj hopener)
    exact Database.mem_registered.mpr (registered_now h hregistered)
  · obtain ⟨value, hvalue, hdescribed⟩ := hread.highestbidprice
    obtain ⟨price, rfl, hzero | ⟨bidder, hbid⟩⟩ := price_origin h hnow (hfield hvalue)
    · obtain rfl := Option.some.inj hdescribed
      exact .inl hzero
    · obtain rfl := Option.some.inj hdescribed
      have hpositive := (positive_prices h).issued _ _ _ hbid
      have hstarting := starting_le_bid h hbid hnow (hfield hread.startingprice)
      have hstored : s.db.highestbidder item.uniqueKey = some item.highestBidder :=
        Database.highestbidder_eq_some.mpr (hfield hread.highestbidder)
      have hissued := (bid_issued_iff h _ _ _).mp hbid
      obtain ⟨amount, hwinner⟩ := bidder_of_quiet h hquiet hstored hissued
      have hregistered := bidder_registered h hwinner
      exact .inr ⟨hpositive, hstarting, Database.mem_registered.mpr hregistered⟩

/-- Among settled items of closed auctions, what is not earned is what was won at
its starting price. -/
theorem unearned_iff (h : Reachable world now s) {items : List AuctionItem}
    (hitems : decodeProducts zone t s.db = some items)
    (hsettled : ∀ item ∈ items, item.Settled s.db) :
    (∀ item ∈ AuctionItem.ended items, ¬ item.startingPrice < item.highestBidPrice →
      item.highestBidPrice = 0) ↔ s.db.NoneSoldAtStart zone t := by
  constructor
  · rintro hunearned key record hrecord ⟨hclosed, price, hstarting, hprice, hpositive⟩
    obtain ⟨item, hitem, hread⟩ := exists_mem_of_lookup hitems hrecord
    obtain ⟨value, hvalue, hdescribed⟩ := hread.highestbidprice
    rw [castDouble_eq_some.mp hprice] at hvalue
    obtain rfl := Option.some.inj hvalue
    obtain rfl := Option.some.inj hdescribed
    have hstart := hread.startingprice
    rw [castDouble_eq_some.mp hstarting] at hstart
    have hequal : item.highestBidPrice = item.startingPrice :=
      Value.number.inj (Option.some.inj hstart)
    have hended : item ∈ AuctionItem.ended items :=
      AuctionItem.mem_ended.mpr ⟨hitem, hread.closedAt_iff.mp hclosed⟩
    have hnotAbove : ¬ item.startingPrice < item.highestBidPrice := by
      rw [hequal]
      exact lt_irrefl _
    exact absurd (hunearned item hended hnotAbove) hpositive.ne'
  · intro hnone item hitem hunearned
    obtain ⟨hmem, hclosed⟩ := AuctionItem.mem_ended.mp hitem
    rcases (hsettled item hmem).bought with hzero | ⟨hpositive, hstarting, _⟩
    · exact hzero
    · obtain ⟨record, hrecord, hread⟩ := exists_of_mem_decodeProducts hitems hmem
      obtain ⟨value, hvalue, hdescribed⟩ := hread.highestbidprice
      obtain ⟨_, rfl, _⟩ := price_origin h (Outbox.Net.db_mem_states _)
        (Database.productField_eq_some.mpr ⟨record, hrecord, hvalue⟩)
      obtain rfl := Option.some.inj hdescribed
      have hequal : item.startingPrice = item.highestBidPrice :=
        hstarting.antisymm (not_lt.mp hunearned)
      have hstart : castDouble (record .startingprice) = some item.highestBidPrice := by
        rw [← hequal]
        exact castDouble_eq_some.mpr hread.startingprice
      have hsold : record.SoldAtStart zone t :=
        ⟨hread.closedAt_iff.mpr hclosed, item.highestBidPrice, hstart,
          castDouble_eq_some.mpr hvalue, hpositive⟩
      exact absurd hsold (hnone item.uniqueKey record hrecord)

/-- A snapshot that a profile has computed decodes. -/
theorem decodes_of_profiles {db : Database} {totals : List ProfileViewController.Totals}
    (htotals : db.profiles zone t = some totals) {userName : String}
    (huser : userName ∈ db.registered) : ∃ items, decodeProducts zone t db = some items := by
  obtain ⟨_, _, hdata⟩ := Traverse.mem_of_mem htotals huser
  simp only [ProfileViewController.retrieveData, Option.bind_eq_bind,
    Option.bind_eq_some_iff] at hdata
  obtain ⟨items, hitems, _⟩ := hdata
  exact ⟨items, hitems⟩

/-- Without users there is no sale. -/
theorem noneSold_of_no_users (h : Reachable world now s) (hnobody : s.db.registered = []) :
    s.db.NoneSoldAtStart zone t := by
  rintro key record hrecord ⟨_, price, _, hprice, hpositive⟩
  obtain ⟨_, heq, rfl | ⟨bidder, hbid⟩⟩ := price_origin h (Outbox.Net.db_mem_states _)
    (Database.productField_eq_some.mpr ⟨record, hrecord, castDouble_eq_some.mp hprice⟩)
  · rw [Value.number.inj heq] at hpositive
    exact lt_irrefl _ hpositive
  · have hregistered := ((issue_backed h _ hbid).of_bid (mem_bidIssues.mpr (.inl rfl))).1
    have hmem := Database.mem_registered.mpr (registered_now h hregistered)
    rw [hnobody] at hmem
    cases hmem

/-- With no write on its way and distinct names, the profiles balance exactly
when no closed auction was won at its starting price. -/
theorem balanced_iff (h : Reachable world now s) (hquiet : s.wire = [])
    (hnames : s.db.registered.Nodup) {totals : List ProfileViewController.Totals}
    (htotals : s.db.profiles zone t = some totals) :
    Balanced totals ↔ s.db.NoneSoldAtStart zone t := by
  cases husers : s.db.registered with
  | nil =>
      have hnone : s.db.NoneSoldAtStart zone t := noneSold_of_no_users h husers
      rw [Database.profiles, husers] at htotals
      obtain rfl : totals = [] := (Option.some.inj htotals).symm
      exact iff_of_true rfl hnone
  | cons userName _ =>
      obtain ⟨items, hitems⟩ := decodes_of_profiles htotals
        (by rw [husers]; exact List.mem_cons_self)
      have hsettled : ∀ item ∈ items, item.Settled s.db :=
        fun item hitem => settled_of_quiet h hquiet hitems hitem
      have hnonneg : ∀ item ∈ AuctionItem.ended items, 0 ≤ item.highestBidPrice := by
        intro item hitem
        rcases (hsettled item (AuctionItem.mem_ended.mp hitem).1).bought with
          hzero | ⟨hpositive, _⟩
        · exact hzero.ge
        · exact hpositive.le
      rw [profiles_eq hitems htotals, balanced_iff_sums hnames hsettled,
        Ledger.sum_filter_eq_iff _ _ hnonneg]
      exact unearned_iff h hitems hsettled

theorem balanced_iff_of_lamp :
    ∃ s totals, Reachable Scenario.world Scenario.opening s ∧
      s.db.profiles (TimeZone.fixed 480) (Scenario.closing + 60) = some totals ∧
      (totals.map (·.spending)).sum = 20 ∧
      (Balanced totals ↔ s.db.NoneSoldAtStart (TimeZone.fixed 480) (Scenario.closing + 60)) := by
  obtain ⟨s, hreach, hquiet, hnames, totals, htotals, hspent⟩ :
      ∃ s, Reachable Scenario.world Scenario.opening s ∧ s.wire.isEmpty = true ∧
        s.db.registered.Nodup ∧
        ∃ totals ∈ s.db.profiles (TimeZone.fixed 480) (Scenario.closing + 60),
          (totals.map (·.spending)).sum = 20 :=
    Machine.exists_reachable (Scenario.lampBid "20") (by decide +kernel)
  exact ⟨s, totals, hreach, htotals, hspent,
    balanced_iff hreach (List.isEmpty_iff.mp hquiet) hnames htotals⟩

/-- She bids exactly the starting price: she spends 10 and Sue earns nothing. -/
theorem not_balanced :
    ¬ ∀ (world : World) (now : Date) (s : System) (zone : TimeZone) (t : Date)
      (totals : List ProfileViewController.Totals), Reachable world now s → s.wire = [] →
      s.db.registered.Nodup → s.db.profiles zone t = some totals → Balanced totals := by
  intro hbalanced
  obtain ⟨s, hreach, hquiet, hnames, totals, htotals, hunbalanced⟩ :
      ∃ s, Reachable Scenario.world Scenario.opening s ∧ s.wire.isEmpty = true ∧
        s.db.registered.Nodup ∧
        ∃ totals ∈ s.db.profiles (TimeZone.fixed 480) (Scenario.closing + 60),
          ¬ Balanced totals :=
    Machine.exists_reachable (Scenario.lampBid "10") (by decide +kernel)
  exact hunbalanced (hbalanced _ _ s _ _ totals hreach (List.isEmpty_iff.mp hquiet) hnames
    htotals)

end System

end Auctioneer
