import Auctioneer.Library.TwoStep
import Auctioneer.Proof.Records

/-!
What the bids on a product leave behind: amounts are positive and reach the
starting price, and once a bid has arrived whole the stored bidder is one of
those who bid.
-/

namespace Auctioneer

open HomeFeedDetailsViewController

/-- What an amount that passes the thresholds is. -/
theorem passesPriceTest_finite {item : AuctionItem} {amount : Price}
    (h : passesPriceTest item (.finite amount) = true) :
    item.startingPrice ≤ amount ∧ (0 ≤ item.highestBidPrice → 0 < amount) := by
  unfold passesPriceTest at h
  split at h
  · next hfirst =>
    have hstarting : item.startingPrice ≤ amount := by simpa using h
    exact ⟨hstarting, fun hnonneg => (hnonneg.trans_lt hfirst).trans_le hstarting⟩
  · next hlater =>
    have habove : item.highestBidPrice < amount := by simpa using h
    exact ⟨(not_lt.mp hlater).trans habove.le, fun hnonneg => hnonneg.trans_lt habove⟩

@[simp] theorem highestbidprice_priceIssue (db : Database) (key : Key) (amount : Price)
    (bidder : String) :
    ((priceIssue key amount bidder).apply db).highestbidprice key = some amount := by
  simp [Database.highestbidprice_eq_some, Database.productField, priceIssue, Issue.apply,
    Write.apply, Table.lookup_setField]

@[simp] theorem highestbidder_bidderIssue (db : Database) (key : Key) (amount : Price)
    (bidder : String) :
    ((bidderIssue key amount bidder).apply db).highestbidder key = some bidder := by
  simp [Database.highestbidder_eq_some, Database.productField, bidderIssue, Issue.apply,
    Write.apply, Table.lookup_setField]

/-- What backs either write of a bid. -/
theorem Issue.Backed.of_bid {world : World} {dbs : List Database} {issue : Issue} {key : Key}
    {amount : Price} {bidder : String} (h : issue.Backed world dbs)
    (hissue : issue ∈ bidIssues key amount bidder) :
    Registered dbs bidder ∧ ∃ (c : ClientId) (item : AuctionItem), item.uniqueKey = key ∧
      item.Sourced (world c).zone dbs ∧ passesPriceTest item (.finite amount) = true := by
  cases h with
  | bid c item amount' bidder' _ hitem htest hbidder hbid =>
      have heq : item.uniqueKey = key ∧ amount' = amount ∧ bidder' = bidder := by
        rcases mem_bidIssues.mp hbid with rfl | rfl <;>
          rcases mem_bidIssues.mp hissue with heq | heq <;>
            simp [priceIssue, bidderIssue] at heq <;> exact heq.2
      obtain ⟨rfl, rfl, rfl⟩ := heq
      exact ⟨hbidder, c, item, rfl, hitem, htest⟩
  | _ => rcases mem_bidIssues.mp hissue with heq | heq <;> cases heq

/-- The two writes of a bid are issued together. -/
theorem Client.priceIssue_iff_bidderIssue {env : Env} {client client' : Client}
    {action : Action} {issues : List Issue}
    (h : client.act env action = some (.done client' issues)) (key : Key) (amount : Price)
    (bidder : String) :
    priceIssue key amount bidder ∈ issues ↔ bidderIssue key amount bidder ∈ issues := by
  cases act_issues h with
  | silent => simp
  | bid text item userName placed =>
      simp only [mem_bidIssues, priceIssue, bidderIssue, Issue.mk.injEq,
        Write.setProductField.injEq, Value.number.injEq, Value.string.injEq,
        Call.bidSubmit.injEq, reduceCtorEq, false_and, and_false, or_false, false_or]
      tauto
  | task =>
      refine iff_of_false ?_ ?_ <;>
        · intro hmem
          obtain ⟨_, _, heq⟩ := List.mem_map.mp hmem
          cases heq
  | _ => simp [priceIssue, bidderIssue]

/-- Which half of which bid on a product a write is. -/
def Issue.bidHalf (key : Key) (issue : Issue) : Option (Outbox.Half (Price × String)) :=
  match issue.call with
  | .bidSubmit _ amount bidder =>
      if (issue.priceOf key).isSome then some (.first (amount, bidder))
      else if (issue.bidderOf key).isSome then some (.second (amount, bidder))
      else none
  | _ => none

theorem priceIssue_bidHalf (key : Key) (amount : Price) (bidder : String) :
    (priceIssue key amount bidder).bidHalf key = some (.first (amount, bidder)) := by
  simp [Issue.bidHalf, priceIssue, Issue.priceOf]

theorem bidderIssue_bidHalf (key : Key) (amount : Price) (bidder : String) :
    (bidderIssue key amount bidder).bidHalf key = some (.second (amount, bidder)) := by
  simp [Issue.bidHalf, bidderIssue, Issue.priceOf, Issue.bidderOf]

theorem bidHalf_ne {at' key : Key} (hne : at' ≠ key) {amount : Price} {bidder : String}
    {issue : Issue} (hissue : issue ∈ bidIssues at' amount bidder) :
    issue.bidHalf key = none := by
  rcases mem_bidIssues.mp hissue with rfl | rfl <;>
    simp [Issue.bidHalf, priceIssue, bidderIssue, Issue.priceOf, Issue.bidderOf, hne]

section Backed

variable {world : World} {dbs : List Database} {key : Key} {issue : Issue}

/-- A half of a bid is one of the two writes of `Bid_Submit`. -/
theorem Issue.Backed.bidHalf_cases (key : Key) (h : issue.Backed world dbs) :
    (∃ u, issue = priceIssue key u.1 u.2 ∧ issue.bidHalf key = some (.first u)) ∨
    (∃ u, issue = bidderIssue key u.1 u.2 ∧ issue.bidHalf key = some (.second u)) ∨
    issue.bidHalf key = none := by
  cases h with
  | bid _ item amount bidder _ _ _ _ hbid =>
      by_cases hkey : item.uniqueKey = key
      · subst hkey
        rcases mem_bidIssues.mp hbid with rfl | rfl
        · exact .inl ⟨(amount, bidder), rfl, priceIssue_bidHalf _ _ _⟩
        · exact .inr (.inl ⟨(amount, bidder), rfl, bidderIssue_bidHalf _ _ _⟩)
      · exact .inr (.inr (bidHalf_ne hkey hbid))
  | _ => exact .inr (.inr rfl)

theorem Issue.Backed.eq_of_first (h : issue.Backed world dbs) {u : Price × String}
    (hhalf : issue.bidHalf key = some (.first u)) : issue = priceIssue key u.1 u.2 := by
  rcases h.bidHalf_cases key with ⟨u', heq, hfirst⟩ | ⟨u', _, hsecond⟩ | hnone
  · obtain rfl : u' = u := by simpa [hfirst] using hhalf
    exact heq
  · simp [hsecond] at hhalf
  · simp [hnone] at hhalf

theorem Issue.Backed.eq_of_second (h : issue.Backed world dbs) {u : Price × String}
    (hhalf : issue.bidHalf key = some (.second u)) : issue = bidderIssue key u.1 u.2 := by
  rcases h.bidHalf_cases key with ⟨u', _, hfirst⟩ | ⟨u', heq, hsecond⟩ | hnone
  · simp [hfirst] at hhalf
  · obtain rfl : u' = u := by simpa [hsecond] using hhalf
    exact heq
  · simp [hnone] at hhalf

theorem Issue.Backed.bidKey_of_bidHalf (h : issue.Backed world dbs)
    (hhalf : issue.bidHalf key ≠ none) : issue.bidKey = some key := by
  rcases h.bidHalf_cases key with ⟨_, rfl, _⟩ | ⟨_, rfl, _⟩ | hnone
  · rfl
  · rfl
  · exact absurd hnone hhalf

/-- Every other write leaves the price and the bidder alone, or creates the
product. -/
theorem Issue.Backed.unrelated (h : issue.Backed world dbs)
    (hhalf : issue.bidHalf key = none) {db : Database} {field : ProductField} {value : Value}
    (hfield : field = .highestbidprice ∨ field = .highestbidder)
    (hvalue : (issue.apply db).productField key field = some value) :
    db.productField key field = some value ∨
      issue.creates = some key ∧ issue.Sets (key, field) value := by
  rcases issue.sets_or_kept db (key, field) value hvalue with hsets | hkept
  · cases h with
    | auction =>
        obtain ⟨rfl, _⟩ := id hsets
        exact .inr ⟨rfl, hsets⟩
    | bid _ item amount bidder _ _ _ _ hbid =>
        rcases mem_bidIssues.mp hbid with rfl | rfl
        · obtain ⟨hcell, _⟩ := hsets
          obtain ⟨rfl, rfl⟩ := Prod.mk.inj hcell
          simp [priceIssue_bidHalf] at hhalf
        · obtain ⟨hcell, _⟩ := hsets
          obtain ⟨rfl, rfl⟩ := Prod.mk.inj hcell
          simp [bidderIssue_bidHalf] at hhalf
    | _ => cases hsets
  · exact .inl hkept

end Backed

namespace System

variable {world : World} {ok : System → Label → Prop} {now : Date} {s s' : System}

/-- The two halves of a bid are issued one right after the other. -/
theorem whole_of_act {key : Key} {c : ClientId} {action : Action} {client : Client}
    {issues : List Issue}
    (hact : (s.client c).act (s.env world c (action.ends s.now)) action =
      some (.done client issues)) :
    Outbox.Whole (Issue.bidHalf key) issues := by
  cases Client.act_issues hact with
  | silent => exact .nil
  | signUp => exact .other rfl .nil
  | bid text item userName amount =>
      by_cases hkey : item.uniqueKey = key
      · subst hkey
        exact .update (priceIssue_bidHalf _ _ _) (bidderIssue_bidHalf _ _ _) .nil
      · exact .of_none fun issue hissue => bidHalf_ne hkey hissue
  | delete => exact .other rfl .nil
  | auction => exact .other rfl .nil
  | task _ _ pending users writes _ _ hwrites =>
      refine .of_none ?_
      intro issue hissue
      obtain ⟨write, hwrite, rfl⟩ := List.mem_map.mp hissue
      obtain ⟨_, _, _, _, rfl, _⟩ := Client.mem_taskWrites hwrites hwrite
      rfl

/-- A bid's price has been issued exactly when its bidder has. -/
theorem bid_issued_iff (h : ReachesUnder world ok now s) (key : Key) (amount : Price)
    (bidder : String) :
    priceIssue key amount bidder ∈ s.net.issued ↔
      bidderIssue key amount bidder ∈ s.net.issued := by
  refine net_invariant (fun net => priceIssue key amount bidder ∈ net.issued ↔
    bidderIssue key amount bidder ∈ net.issued)
    (iff_of_false List.not_mem_nil List.not_mem_nil) ?_ ?_ h
  · intro _ _ _ _ _ hnet hissued
    rwa [Outbox.Net.deliver_issued hnet]
  · intro _ _ _ _ issues _ _ hact hissued
    have hnew := Client.priceIssue_iff_bidderIssue hact key amount bidder
    rw [Outbox.Net.issue_issued, List.mem_append, List.mem_append, hissued, hnew]

/-- Bids are of positive amounts, and clients hold no negative price. -/
structure PositivePrices (s : System) : Prop where
  issued : ∀ key amount bidder, priceIssue key amount bidder ∈ s.net.issued → 0 < amount
  held : ∀ c, ∀ item ∈ (s.client c).heap, 0 ≤ item.highestBidPrice

theorem PositivePrices.stored (h : ReachesUnder world ok now s) (hpositive : s.PositivePrices)
    {db : Database} (hdb : db ∈ s.states) {key : Key} {value : Value}
    (hvalue : db.productField key .highestbidprice = some value) :
    ∃ price, value = .number price ∧ 0 ≤ price := by
  obtain ⟨price, rfl, rfl | ⟨bidder, hissue⟩⟩ := price_origin h hdb hvalue
  · exact ⟨0, rfl, le_refl _⟩
  · exact ⟨price, rfl, (hpositive.issued key price bidder hissue).le⟩

/-- One event keeps the prices that a client holds from being negative. -/
theorem heap_nonneg_act (h : ReachesUnder world ok now s) (hpositive : s.PositivePrices)
    {c : ClientId} {action : Action} {client : Client} {issues : List Issue}
    (hact : (s.client c).act (s.env world c (action.ends s.now)) action =
      some (.done client issues)) :
    ∀ item ∈ client.heap, 0 ≤ item.highestBidPrice := by
  refine Client.act_items (fun item => 0 ≤ item.highestBidPrice) hact (hpositive.held c) ?_ ?_
  · intro db hdb item record hrecord hread
    obtain ⟨value, hvalue, hdescribed⟩ := hread.highestbidprice
    have hstored := Database.productField_eq_some.mpr ⟨record, hrecord, hvalue⟩
    obtain ⟨price, rfl, hnonneg⟩ := PositivePrices.stored h hpositive hdb hstored
    obtain rfl := Option.some.inj hdescribed
    exact hnonneg
  · intro db hdb product price item _ hprice _ _
    have hstored := Database.highestbidprice_eq_some.mp hprice
    obtain ⟨_, heq, hnonneg⟩ := PositivePrices.stored h hpositive hdb hstored
    obtain rfl := Value.number.inj heq
    exact hnonneg

/-- One event issues only bids of positive amounts. -/
theorem issued_positive_act (hpositive : s.PositivePrices) {c : ClientId} {action : Action}
    {client : Client} {issues : List Issue}
    (hact : (s.client c).act (s.env world c (action.ends s.now)) action =
      some (.done client issues)) {key : Key} {amount : Price} {bidder : String}
    (hissue : priceIssue key amount bidder ∈ issues) : 0 < amount := by
  cases Client.act_issued hact _ hissue with
  | bid text item userName placed _ hitem huser htest hbid =>
      obtain rfl : amount = placed := by
        rcases mem_bidIssues.mp hbid with heq | heq
        · simp only [priceIssue, Issue.mk.injEq, Call.bidSubmit.injEq] at heq
          exact heq.2.2.1
        · simp [priceIssue, bidderIssue] at heq
      have hheld : 0 ≤ item.highestBidPrice :=
        hpositive.held c item (Client.selectedItem_mem hitem)
      exact (passesPriceTest_finite htest).2 hheld

theorem positive_prices (h : ReachesUnder world ok now s) : s.PositivePrices := by
  refine h.invariant PositivePrices ⟨?_, ?_⟩ ?_
  · intro _ _ _ hissue
    cases hissue
  · intro _ _ hitem
    cases hitem
  · intro s l s' hprior hpositive _ htaken
    refine ⟨?_, ?_⟩
    · intro key amount bidder hissue
      rcases step_net htaken with ⟨hnet, _⟩ | ⟨_, _, hnet, _⟩ | ⟨_, _, _, _, _, hact, hnet, _⟩
      · rw [hnet] at hissue
        exact hpositive.issued key amount bidder hissue
      · rw [Outbox.Net.deliver_issued hnet] at hissue
        exact hpositive.issued key amount bidder hissue
      · rw [hnet, Outbox.Net.issue_issued, List.mem_append] at hissue
        rcases hissue with hold | hnew
        · exact hpositive.issued key amount bidder hold
        · exact issued_positive_act hpositive hact hnew
    · intro c item hitem
      rcases step_client htaken c with heq | heq | ⟨action, issues, _, hact⟩
      · rw [heq] at hitem
        exact hpositive.held c item hitem
      · rw [heq] at hitem
        exact hpositive.held c item hitem
      · exact heap_nonneg_act hprior hpositive hact item hitem

/-- A bid reaches the starting price of its product. -/
theorem starting_le_bid (h : ReachesUnder world ok now s) {key : Key} {amount starting : Price}
    {bidder : String} (hissue : priceIssue key amount bidder ∈ s.net.issued) {db : Database}
    (hdb : db ∈ s.states)
    (hstarting : db.productField key .startingprice = some (.number starting)) :
    starting ≤ amount := by
  obtain ⟨_, c, item, rfl, ⟨source, hsource, record, hrecord, hdescribes⟩, htest⟩ :=
    (issue_backed h _ hissue).of_bid (mem_bidIssues.mpr (.inl rfl))
  have hshown : source.productField item.uniqueKey .startingprice =
      some (.number item.startingPrice) :=
    Database.productField_eq_some.mpr ⟨record, hrecord, hdescribes.startingprice⟩
  have hsame := field_static h hdb hsource (by simp) (by simp) hstarting hshown
  rw [Value.number.inj hsame]
  exact (passesPriceTest_finite htest).1

/-- The stored bidder is one of those who bid, unless every bid on the product
still has its bidder on the way. -/
def BidderSettled (key : Key) (net : Outbox.Net ClientId Issue Database) : Prop :=
  ∀ bidder, net.db.highestbidder key = some bidder →
    (∃ amount, bidderIssue key amount bidder ∈ net.issued) ∨
    (bidder = "-" ∧ ∀ amount bidder', bidderIssue key amount bidder' ∈ net.issued →
      ∃ c, (c, bidderIssue key amount bidder') ∈ net.wire)

/-- A product on which a bid has been placed is not created any more. -/
theorem not_creates_of_bid (h : ReachesUnder world ok now s) {sender : ClientId}
    {issue : Issue} {key : Key} (hwire : (sender, issue) ∈ s.wire) {amount : Price}
    {bidder : String} (hbid : bidderIssue key amount bidder ∈ s.net.issued) :
    issue.creates ≠ some key := by
  intro hcreates
  obtain ⟨_, c, item, rfl, hitem, _⟩ :=
    (issue_backed h _ hbid).of_bid (mem_bidIssues.mpr (.inr rfl))
  obtain ⟨db, hdb, hholds⟩ := hitem.holds
  exact (keyed h).pending _ hwire _ hcreates db hdb hholds

/-- A delivery: it brings the bidder of a bid, creates the product, or leaves
the bidder and every other pending one. -/
theorem bidderSettled_deliver (h : ReachesUnder world ok now s) {key : Key}
    {sender : ClientId} {net : Outbox.Net ClientId Issue Database}
    (hnet : s.net.deliver sender Issue.apply = some net) (hsettled : BidderSettled key s.net) :
    BidderSettled key net := by
  obtain ⟨issue, _, _, hwire, hdb⟩ := delivered_eq hnet
  have hissued := Outbox.Net.deliver_issued hnet
  have hmem := (honest h).mem_issued hwire
  intro bidder hbidder
  rw [hissued]
  have hvalue := hbidder
  rw [hdb, Database.highestbidder_eq_some] at hvalue
  rcases issue.sets_or_kept s.db (key, .highestbidder) _ hvalue with hsets | hkept
  · cases issue_backed h issue hmem with
    | auction =>
        obtain ⟨rfl, hnobody⟩ := hsets
        right
        refine ⟨(Value.string.inj (Option.some.inj hnobody)).symm, ?_⟩
        intro amount bidder' hbid
        have hcreated := not_creates_of_bid h hwire hbid
        exact absurd rfl hcreated
    | bid _ item amount bidder' _ _ _ _ hbid =>
        rcases mem_bidIssues.mp hbid with rfl | rfl
        · obtain ⟨hcell, _⟩ := hsets
          cases (Prod.mk.inj hcell).2
        · obtain ⟨hcell, hstored⟩ := hsets
          obtain ⟨rfl, _⟩ := Prod.mk.inj hcell
          obtain rfl := Value.string.inj hstored
          exact .inl ⟨amount, hmem⟩
    | _ => cases hsets
  · have hbefore := Database.highestbidder_eq_some.mpr hkept
    rcases hsettled bidder hbefore with hbid | ⟨hnobody, hpending⟩
    · exact .inl hbid
    · by_cases hall : ∀ amount bidder', bidderIssue key amount bidder' ∈ s.net.issued →
          ∃ c, (c, bidderIssue key amount bidder') ∈ net.wire
      · exact .inr ⟨hnobody, hall⟩
      · push Not at hall
        obtain ⟨amount, bidder', hissue, hgone⟩ := hall
        obtain ⟨c, hold⟩ := hpending amount bidder' hissue
        rcases Outbox.Net.mem_wire_of_deliver hnet hold with hstill | ⟨_, harrived⟩
        · exact absurd hstill (hgone c)
        · rw [harrived, highestbidder_bidderIssue, Option.some.injEq] at hbidder
          subst hbidder
          exact .inl ⟨amount, hissue⟩

theorem bidder_settled (key : Key) (h : ReachesUnder world ok now s) :
    BidderSettled key s.net := by
  refine net_invariant (BidderSettled key) ?_ ?_ ?_ h
  · intro bidder hbidder
    cases hbidder
  · intro s sender net hprior _ hnet hsettled
    exact bidderSettled_deliver hprior hnet hsettled
  · intro s c action client issues _ _ _ hsettled bidder hbidder
    rw [Outbox.Net.issue_issued, Outbox.Net.issue_wire]
    rcases hsettled bidder hbidder with ⟨amount, hbid⟩ | ⟨hnobody, hpending⟩
    · exact .inl ⟨amount, List.mem_append_left _ hbid⟩
    · refine .inr ⟨hnobody, ?_⟩
      intro amount bidder' hissue
      rcases List.mem_append.mp hissue with hold | hnew
      · obtain ⟨sender, hwire⟩ := hpending amount bidder' hold
        exact ⟨sender, List.mem_append_left _ hwire⟩
      · have hsent := List.mem_map_of_mem (f := (c, ·)) hnew
        exact ⟨c, List.mem_append_right _ hsent⟩

/-- With no write on its way, the stored bidder of a product that has been bid
on is one of those who bid. -/
theorem bidder_of_quiet (h : ReachesUnder world ok now s) (hquiet : s.wire = []) {key : Key}
    {bidder : String} (hbidder : s.db.highestbidder key = some bidder) {amount : Price}
    {bidder' : String} (hbid : bidderIssue key amount bidder' ∈ s.net.issued) :
    ∃ amount, bidderIssue key amount bidder ∈ s.net.issued := by
  rcases bidder_settled key h bidder hbidder with hsettled | ⟨_, hpending⟩
  · exact hsettled
  · obtain ⟨c, hwire⟩ := hpending amount bidder' hbid
    rw [show s.net.wire = [] from hquiet] at hwire
    cases hwire

/-- Whoever bid is a registered user. -/
theorem bidder_registered (h : ReachesUnder world ok now s) {key : Key} {amount : Price}
    {bidder : String} (hbid : bidderIssue key amount bidder ∈ s.net.issued) :
    ∃ user, s.db.username user = some bidder :=
  registered_now h ((issue_backed h _ hbid).of_bid (mem_bidIssues.mpr (.inr rfl))).1

end System

end Auctioneer
