import Auctioneer.Proof.Bids

/-!
The starting price of a product is its reserve: whatever price a screen held
when a bid was pressed, the bid reached the starting price.
-/

namespace Auctioneer

open HomeFeedDetailsViewController

/-- A write keeps a price in every record that has a starting price. -/
theorem Issue.Backed.priced {world : World} {dbs : List Database} {issue : Issue}
    (h : issue.Backed world dbs) {db : Database}
    (hdb : ∀ key record, db.products.lookup key = some record →
      (record .startingprice).isSome → (record .highestbidprice).isSome) :
    ∀ key record, (issue.apply db).products.lookup key = some record →
      (record .startingprice).isSome → (record .highestbidprice).isSome := by
  intro key record hlookup hstarting
  cases h with
  | auction =>
      simp only [Issue.apply, Write.apply, Table.lookup_insert'] at hlookup
      split at hlookup
      · obtain rfl := Option.some.inj hlookup
        rfl
      · exact hdb key record hlookup hstarting
  | bid _ item amount bidder _ _ _ _ hbid =>
      rcases mem_bidIssues.mp hbid with rfl | rfl
      all_goals
        simp only [Issue.apply, Write.apply, Table.lookup_setField, priceIssue,
          bidderIssue] at hlookup
        split at hlookup
      · obtain rfl := Option.some.inj hlookup
        rfl
      · exact hdb key record hlookup hstarting
      · obtain rfl := Option.some.inj hlookup
        cases hold : db.products.lookup item.uniqueKey with
        | none => simp [hold] at hstarting
        | some old =>
            simp only [hold, Option.getD_some] at hstarting ⊢
            exact hdb _ old hold hstarting
      · exact hdb key record hlookup hstarting
  | delete =>
      simp only [Issue.apply, Write.apply, Table.lookup_erase',
        Option.ite_none_left_eq_some] at hlookup
      exact hdb key record hlookup.2 hstarting
  | signUp => exact hdb key record hlookup hstarting
  | task => exact hdb key record hlookup hstarting

namespace System

/-- The `highestbidder` write of a bid on the product has been applied in a run
that leads to `s`. -/
def BidderApplied (world : World) (now : Date) (key : Key) (s : System) : Prop :=
  ∃ (before after : System) (sender : ClientId) (amount : Price) (bidder : String),
    Reachable world now before ∧
    before.delivered (.deliver sender) = some (sender, bidderIssue key amount bidder) ∧
    before.step world (.deliver sender) = some after ∧
    Machine.Reachable (System.step world) after s

/-- Every product with a starting price has a price that is the initial one or
reaches it, and that reaches it once the bidder of a bid has been applied. -/
def Reserved (world : World) (now : Date) (s : System) : Prop :=
  ∀ key record starting, s.db.products.lookup key = some record →
    record .startingprice = some starting →
    ∃ start price, starting = .number start ∧ record .highestbidprice = some (.number price) ∧
      (price = 0 ∨ start ≤ price) ∧ (BidderApplied world now key s → start ≤ price)

/-- The stored price, if there is one, is that of a bid. -/
def PriceFromBid (key : Key) (net : Outbox.Net ClientId Issue Database) : Prop :=
  ∀ price, net.db.highestbidprice key = some price →
    ∃ bidder, priceIssue key price bidder ∈ net.issued

variable {world : World} {ok : System → Label → Prop} {now : Date} {s : System} {key : Key}

section Deliver

variable {sender : ClientId} {net : Outbox.Net ClientId Issue Database} {issue : Issue}

/-- Only a creation replaces the price of a bid by another one. -/
theorem priceFromBid_apply (h : ReachesUnder world ok now s) (hwire : (sender, issue) ∈ s.wire)
    (hdb : net.db = issue.apply s.db) (hissued : net.issued = s.net.issued)
    (hcreates : issue.creates ≠ some key) (hfrom : PriceFromBid key s.net) :
    PriceFromBid key net := by
  have hmem := (honest h).mem_issued hwire
  intro price hprice
  rw [hissued]
  rw [hdb, Database.highestbidprice_eq_some] at hprice
  rcases issue.sets_or_kept s.db (key, .highestbidprice) _ hprice with hsets | hkept
  · cases issue_backed h issue hmem with
    | auction =>
        obtain ⟨rfl, _⟩ := hsets
        exact absurd rfl hcreates
    | bid _ item amount bidder _ _ _ _ hbid =>
        rcases mem_bidIssues.mp hbid with rfl | rfl
        · obtain ⟨hcell, hvalue⟩ := hsets
          obtain ⟨rfl, _⟩ := Prod.mk.inj hcell
          obtain rfl := Value.number.inj hvalue
          exact ⟨bidder, hmem⟩
        · obtain ⟨hcell, _⟩ := hsets
          cases (Prod.mk.inj hcell).2
    | _ => cases hsets
  · exact hfrom price (Database.highestbidprice_eq_some.mpr hkept)

/-- A delivery: it begins a bid, creates the product before every bid, or leaves
what held before. -/
theorem bids_begun_deliver (h : ReachesUnder world ok now s)
    (hnet : s.net.deliver sender Issue.apply = some net)
    (hbegun : PriceFromBid key s.net ∨
      ∀ c, Outbox.Whole (Issue.bidHalf key) (s.net.outbox c)) :
    PriceFromBid key net ∨ ∀ c, Outbox.Whole (Issue.bidHalf key) (net.outbox c) := by
  obtain ⟨issue, _, houtbox, hwire, hdb⟩ := delivered_eq hnet
  have hissued := Outbox.Net.deliver_issued hnet
  have hbacked := issue_backed h issue ((honest h).mem_issued hwire)
  rcases hbegun with hfrom | hwhole
  · by_cases hcreates : issue.creates = some key
    · right
      intro c
      refine .of_none ?_
      intro issue' hissue'
      by_contra hhalf
      have hwire' : (c, issue') ∈ s.wire :=
        (Outbox.Net.deliver_wire_sublist hnet).subset
          ((Outbox.Net.mem_outbox net c).mp hissue')
      have hbacked' := issue_backed h issue' ((honest h).mem_issued hwire')
      have hkey := hbacked'.bidKey_of_bidHalf hhalf
      exact not_creates_of_bidKey h hwire hwire' hkey hcreates
    · exact .inl (priceFromBid_apply h hwire hdb hissued hcreates hfrom)
  · have hsender := hwhole sender
    rw [houtbox] at hsender
    rcases hsender.tail with ⟨_, hrest⟩ | ⟨u, hfirst⟩
    · right
      intro c
      by_cases hc : c = sender
      · rwa [hc]
      · rw [Outbox.Net.deliver_outbox_ne hnet hc]
        exact hwhole c
    · left
      intro price hprice
      have heq := hbacked.eq_of_first hfirst
      rw [heq] at hdb hwire
      rw [hdb, highestbidprice_priceIssue, Option.some.injEq] at hprice
      rw [hissued, ← hprice]
      exact ⟨u.2, (honest h).mem_issued hwire⟩

end Deliver

/-- The stored price is that of a bid, unless every bid on the product is still
whole on its way. -/
theorem bids_begun (key : Key) (h : ReachesUnder world ok now s) :
    PriceFromBid key s.net ∨ ∀ c, Outbox.Whole (Issue.bidHalf key) (s.net.outbox c) := by
  refine net_invariant (fun net => PriceFromBid key net ∨
    ∀ c, Outbox.Whole (Issue.bidHalf key) (net.outbox c)) (.inr fun _ => .nil) ?_ ?_ h
  · intro s sender net hprior _ hnet hbegun
    exact bids_begun_deliver hprior hnet hbegun
  · intro s c action client issues _ _ hact hbegun
    rcases hbegun with hfrom | hwhole
    · left
      intro price hprice
      obtain ⟨bidder, hissue⟩ := hfrom price hprice
      exact ⟨bidder, List.mem_append_left _ hissue⟩
    · right
      intro other
      by_cases hother : other = c
      · subst hother
        rw [Outbox.Net.outbox_issue_self]
        exact (hwhole other).append (whole_of_act hact)
      · rw [Outbox.Net.outbox_issue_ne _ _ hother]
        exact hwhole other

/-- Once a bid has been applied whole, no creation follows it. -/
theorem priceFromBid_run {after : System} (hafter : Reachable world now after) {amount : Price}
    {bidder : String} (hissued : bidderIssue key amount bidder ∈ after.net.issued)
    (hfrom : PriceFromBid key after.net)
    (h : Machine.Reachable (System.step world) after s) : PriceFromBid key s.net := by
  have hinv : PriceFromBid key s.net ∧ bidderIssue key amount bidder ∈ s.net.issued := by
    refine h.invariant (fun s => PriceFromBid key s.net ∧
      bidderIssue key amount bidder ∈ s.net.issued) ⟨hfrom, hissued⟩ ?_
    rintro s l s' hprior ⟨hfrom, hissued⟩ _ htaken
    have hreach : Reachable world now s := hafter.trans hprior
    rcases step_net htaken with ⟨hnet, _⟩ | ⟨sender, _, hnet, _⟩ | ⟨c, _, _, _, _, _, hnet, _⟩
    · rw [hnet]
      exact ⟨hfrom, hissued⟩
    · obtain ⟨issue, _, _, hwire, hdb⟩ := delivered_eq hnet
      have hsame := Outbox.Net.deliver_issued hnet
      have hcreates := not_creates_of_bid hreach hwire hissued
      refine ⟨priceFromBid_apply hreach hwire hdb hsame hcreates hfrom, ?_⟩
      rwa [hsame]
    · rw [hnet]
      refine ⟨?_, List.mem_append_left _ hissued⟩
      intro price hprice
      obtain ⟨bidder', hissue⟩ := hfrom price hprice
      exact ⟨bidder', List.mem_append_left _ hissue⟩
  exact hinv.1

/-- A bidder is applied after the price of its bid. -/
theorem BidderApplied.priceFromBid (h : BidderApplied world now key s) :
    PriceFromBid key s.net := by
  obtain ⟨before, after, sender, amount, bidder, hbefore, hdelivered, hstep, hrun⟩ := h
  have hnet := step_deliver hstep
  obtain ⟨issue, hdelivered', houtbox, hwire, hdb⟩ := delivered_eq hnet
  obtain rfl : bidderIssue key amount bidder = issue := by
    have heq := Option.some.inj (hdelivered.symm.trans hdelivered')
    exact (Prod.mk.inj heq).2
  have hfrom : PriceFromBid key before.net := by
    rcases bids_begun key hbefore with hfrom | hwhole
    · exact hfrom
    · have hhead : bidderIssue key amount bidder ∈ (before.net.outbox sender).head? := by
        simp [houtbox]
      have hsecond := bidderIssue_bidHalf key amount bidder
      exact absurd hsecond ((hwhole sender).head_ne_second hhead _)
  have hsame := Outbox.Net.deliver_issued hnet
  have hafter : PriceFromBid key after.net :=
    priceFromBid_apply hbefore hwire hdb hsame (by simp [Issue.creates, bidderIssue]) hfrom
  have hissued : bidderIssue key amount bidder ∈ after.net.issued := by
    rw [hsame]
    exact (honest hbefore).mem_issued hwire
  exact priceFromBid_run (hbefore.step trivial hstep) hissued hafter hrun

theorem priced (h : ReachesUnder world ok now s) :
    ∀ db ∈ s.states, ∀ key record, db.products.lookup key = some record →
      (record .startingprice).isSome → (record .highestbidprice).isSome := by
  refine db_invariant (fun db => ∀ key record, db.products.lookup key = some record →
    (record .startingprice).isSome → (record .highestbidprice).isSome) ?_ ?_ h
  · intro _ _ hlookup
    cases hlookup
  · intro s sender issue hprior _ _ hwire hinv
    have hmem := (honest hprior).mem_issued hwire
    exact (issue_backed hprior issue hmem).priced (hinv _ (Outbox.Net.db_mem_states _))

/-- The starting price is a reserve in every reachable state. -/
theorem reserved (h : Reachable world now s) : s.Reserved world now := by
  intro key record starting hlookup hstarting
  have hdb := Outbox.Net.db_mem_states s.net
  have hstored := Database.productField_eq_some.mpr ⟨record, hlookup, hstarting⟩
  obtain ⟨created, hcreated, hfield⟩ := field_created h hdb (by simp) (by simp) hstored
  obtain ⟨_, _, _, _, start, _, rfl⟩ := created_form h hcreated
  obtain rfl : Value.number start = starting := Option.some.inj hfield
  have hpriced := priced h _ hdb key record hlookup (by simp [hstarting])
  obtain ⟨value, hvalue⟩ := Option.isSome_iff_exists.mp hpriced
  have hfield' := Database.productField_eq_some.mpr ⟨record, hlookup, hvalue⟩
  obtain ⟨price, rfl, horigin⟩ := price_origin h hdb hfield'
  refine ⟨start, price, rfl, hvalue, ?_, ?_⟩
  · rcases horigin with hzero | ⟨bidder, hissue⟩
    · exact .inl hzero
    · exact .inr (starting_le_bid h hissue hdb hstored)
  · intro happlied
    have hprice := Database.highestbidprice_eq_some.mpr hfield'
    obtain ⟨bidder, hissue⟩ := happlied.priceFromBid price hprice
    exact starting_le_bid h hissue hdb hstored

theorem reserved_of_bid :
    ∃ s, Reachable Scenario.world Scenario.opening s ∧
      s.db.highestbidprice Scenario.lamp = some 20 ∧
      s.Reserved Scenario.world Scenario.opening := by
  obtain ⟨s, hreach, hprice⟩ : ∃ s, Reachable Scenario.world Scenario.opening s ∧
      s.db.highestbidprice Scenario.lamp = some 20 :=
    Machine.exists_reachable (Scenario.lampBid "20") (by decide +kernel)
  exact ⟨s, hreach, hprice, reserved hreach⟩

end System

end Auctioneer
