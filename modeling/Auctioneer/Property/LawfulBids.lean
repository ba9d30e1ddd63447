import Auctioneer.Proof.Bids

/-!
Where the names and the bids of the database come from. A screen judges a bid
by the item it holds, which may be old and may carry the price of another
product; but the seller, the dates and the starting price of an item are those
its product was created with, so that every bid kept the rules of its auction
when it was pressed.
-/

namespace Auctioneer

open HomeFeedDetailsViewController

namespace System

variable {world : World} {ok : System → Label → Prop} {now : Date} {s s' : System}

section Names

/-- A value that is the name of a user. -/
def NamesUser (s : System) (value : Value) : Prop :=
  ∃ name user, value = .string name ∧ s.db.username user = some name

/-- The seller of a product is a user, and so is its bidder, unless there is
none. -/
def NamesUsers (s : System) : Prop :=
  ∀ db ∈ s.states, ∀ key value,
    (db.productField key .openby = some value → s.NamesUser value) ∧
    (db.productField key .highestbidder = some value →
      value = .string "-" ∨ s.NamesUser value)

theorem namesUser_of_registered (h : ReachesUnder world ok now s) {name : String}
    (hname : Registered s.states name) : s.NamesUser (.string name) := by
  obtain ⟨user, huser⟩ := registered_now h hname
  exact ⟨name, user, rfl, huser⟩

theorem names_users (h : Reachable world now s) : s.NamesUsers := by
  intro db hdb key value
  refine ⟨?_, ?_⟩
  · intro hvalue
    obtain ⟨record, hrecord, hfield⟩ := field_created h hdb (by decide) (by decide) hvalue
    obtain ⟨c, form, later, opener, price, hopener, rfl⟩ := created_form h hrecord
    obtain rfl : .string opener = value := Option.some.inj hfield
    exact namesUser_of_registered h hopener
  · intro hvalue
    obtain ⟨bidder, rfl, rfl | ⟨amount, hissue⟩⟩ := bidder_origin h hdb hvalue
    · exact .inl rfl
    · have hbacked := issue_backed h _ hissue
      exact .inr (namesUser_of_registered h
        (hbacked.of_bid (mem_bidIssues.mpr (.inr rfl))).1)

/-- Sue's lamp, with a bid of Amy. -/
theorem names_users_of_lamp :
    ∃ s, Reachable Scenario.world Scenario.opening s ∧
      s.db.productField Scenario.lamp .openby = some (.string "sue") ∧
      s.db.productField Scenario.lamp .highestbidder = some (.string "amy") ∧
      s.NamesUsers := by
  obtain ⟨s, hreach, hopenby, hbidder⟩ : ∃ s, Reachable Scenario.world Scenario.opening s ∧
      s.db.productField Scenario.lamp .openby = some (.string "sue") ∧
      s.db.productField Scenario.lamp .highestbidder = some (.string "amy") :=
    Machine.exists_reachable (Scenario.lampBid "20") (by decide +kernel)
  exact ⟨s, hreach, hopenby, hbidder, names_users hreach⟩

end Names

section Bids

/-- In the state `s` the client can press a bid that keeps the rules of the
auction: it is a user signed in there and not the seller, between the dates of
the product as the device reads them, and reaches the starting price. The user
is one of the database of that moment, since a login of `System` goes by what
has arrived. -/
structure Lawful (world : World) (s : System) (c : ClientId) (key : Key) (amount : Price)
    (bidder : String) : Prop where
  session : (s.client c).signedInUserName = some bidder
  registered : s.NamesUser (.string bidder)
  auction : ∃ record opener starting opendate closedate,
    s.Created key record ∧
    record .openby = some (.string opener) ∧ opener ≠ bidder ∧
    record .startingprice = some (.number starting) ∧ starting ≤ amount ∧
    (castString (record .opendate)).bind (DateFormatter.date (world c).zone) = some opendate ∧
    (castString (record .closedate)).bind (DateFormatter.date (world c).zone) =
      some closedate ∧
    Date.isBetween ((world c).clock s.now) opendate closedate = true

/-- The bid was pressed lawfully in a state of a run that leads to `s`, and both
its writes were issued. -/
def Bid (world : World) (now : Date) (s : System) (key : Key) (amount : Price)
    (bidder : String) : Prop :=
  (∃ prior c, Reachable world now prior ∧ Machine.Reachable (step world) prior s ∧
    prior.Lawful world c key amount bidder) ∧
  priceIssue key amount bidder ∈ s.net.issued ∧ bidderIssue key amount bidder ∈ s.net.issued

/-- Both writes of every bid that was issued are those of a lawful press, and so
are every price and every bidder that a product has had, the initial ones
apart. -/
def BidsLawful (world : World) (now : Date) (s : System) : Prop :=
  (∀ key amount bidder, ∀ issue ∈ bidIssues key amount bidder, issue ∈ s.net.issued →
    s.Bid world now key amount bidder) ∧
  ∀ db ∈ s.states, ∀ key value,
    (db.productField key .highestbidprice = some value → value = .number 0 ∨
      ∃ amount bidder, value = .number amount ∧ s.Bid world now key amount bidder) ∧
    (db.productField key .highestbidder = some value → value = .string "-" ∨
      ∃ amount bidder, value = .string bidder ∧ s.Bid world now key amount bidder)

/-- The record that an item shows is, in what the item says of it, the one that
its product was created with. -/
theorem created_describes (h : ReachesUnder world ok now s) {zone : TimeZone}
    {item : AuctionItem} (hitem : item.Sourced zone s.states) :
    ∃ record, s.Created item.uniqueKey record ∧ item.Describes zone record := by
  obtain ⟨db, hdb, stored, hstored, hdescribes⟩ := hitem
  have hfield : ∀ field value, field ≠ .highestbidprice → field ≠ .highestbidder →
      stored field = some value →
      ∃ record, s.Created item.uniqueKey record ∧ record field = some value :=
    fun field value hprice hbidder hvalue => field_created h hdb hprice hbidder
      (Database.productField_eq_some.mpr ⟨stored, hstored, hvalue⟩)
  obtain ⟨record, hrecord, hopenby⟩ := hfield _ _ (by decide) (by decide) hdescribes.openby
  have hsame : ∀ field value, field ≠ .highestbidprice → field ≠ .highestbidder →
      stored field = some value → record field = some value := by
    intro field value hprice hbidder hvalue
    obtain ⟨record', hrecord', hvalue'⟩ := hfield field value hprice hbidder hvalue
    rwa [created_unique h hrecord hrecord']
  obtain ⟨opentext, hopendate, hopen⟩ := hdescribes.opendate
  obtain ⟨closetext, hclosedate, hclose⟩ := hdescribes.closedate
  exact ⟨record, hrecord,
    { openby := hopenby
      opendate := ⟨opentext, hsame _ _ (by decide) (by decide) hopendate, hopen⟩
      closedate := ⟨closetext, hsame _ _ (by decide) (by decide) hclosedate, hclose⟩
      startingprice := hsame _ _ (by decide) (by decide) hdescribes.startingprice }⟩

/-- One press: a bid that is taken keeps the rules. -/
theorem lawful_of_act (h : ReachesUnder world ok now s) {c : ClientId} {action : Action}
    {client : Client} {issues : List Issue}
    (hact : (s.client c).act (s.env world c (action.ends s.now)) action =
      some (.done client issues)) {key : Key} {amount : Price} {bidder : String}
    {issue : Issue} (hbid : issue ∈ bidIssues key amount bidder) (hissue : issue ∈ issues) :
    s.Lawful world c key amount bidder := by
  cases Client.act_issues hact with
  | silent => cases hissue
  | bid text item userName amount' hitem huser hopened =>
      obtain ⟨hother, hopen, htest⟩ := Client.bidOutcome_bid hitem huser hopened
      obtain ⟨rfl, rfl, rfl⟩ : item.uniqueKey = key ∧ amount' = amount ∧ userName = bidder := by
        rcases mem_bidIssues.mp hissue with rfl | rfl <;>
          rcases mem_bidIssues.mp hbid with heq | heq <;>
            simp [priceIssue, bidderIssue] at heq <;> exact heq.2
      have hsourced := item_sourced h c item (Client.selectedItem_mem hitem)
      obtain ⟨record, hrecord, hdescribes⟩ := created_describes h hsourced
      obtain ⟨opentext, hopendate, hopens⟩ := hdescribes.opendate
      obtain ⟨closetext, hclosedate, hcloses⟩ := hdescribes.closedate
      exact
        { session := huser
          registered := namesUser_of_registered h (session_registered h c _ huser)
          auction := ⟨record, item.openedBy, item.startingPrice, item.openDate,
            item.closeDate, hrecord, hdescribes.openby, hother, hdescribes.startingprice,
            (passesPriceTest_finite htest).1, by simp [hopendate, castString_eq_some.mpr, hopens],
            by simp [hclosedate, castString_eq_some.mpr, hcloses], hopen⟩ }
  | task =>
      obtain ⟨_, _, rfl⟩ := List.mem_map.mp hissue
      rcases mem_bidIssues.mp hbid with heq | heq <;> cases heq
  | _ =>
      obtain rfl := List.mem_singleton.mp hissue
      rcases mem_bidIssues.mp hbid with heq | heq <;> cases heq

/-- What a bid stands on lasts. -/
theorem Bid.step {key : Key} {amount : Price} {bidder : String} {l : Label}
    (hbid : s.Bid world now key amount bidder) (hstep : s.step world l = some s')
    (hsub : s.net.issued ⊆ s'.net.issued) : s'.Bid world now key amount bidder := by
  obtain ⟨⟨prior, c, hprior, hlater, hlawful⟩, hprice, hbidder⟩ := hbid
  exact ⟨⟨prior, c, hprior, .step hlater trivial hstep, hlawful⟩, hsub hprice, hsub hbidder⟩

theorem issued_bid_lawful (h : Reachable world now s) :
    ∀ key amount bidder, ∀ issue ∈ bidIssues key amount bidder, issue ∈ s.net.issued →
      s.Bid world now key amount bidder := by
  refine h.invariant (fun s => ∀ key amount bidder, ∀ issue ∈ bidIssues key amount bidder,
    issue ∈ s.net.issued → s.Bid world now key amount bidder) (by simp [start]) ?_
  intro s l s' hprior hinv _ hstep key amount bidder issue hbid hissue
  rcases step_net hstep with ⟨hnet, _⟩ | ⟨_, _, hnet, _⟩ | ⟨c, action, client, issues, rfl, hact,
    hnet, _⟩
  · rw [hnet] at hissue
    exact (hinv key amount bidder issue hbid hissue).step hstep (by rw [hnet]; exact fun _ => id)
  · have hissued := Outbox.Net.deliver_issued hnet
    rw [hissued] at hissue
    exact (hinv key amount bidder issue hbid hissue).step hstep (hissued ▸ fun _ => id)
  · have hissued : s'.net.issued = s.net.issued ++ issues := by rw [hnet]; rfl
    rw [hissued, List.mem_append] at hissue
    rcases hissue with hold | hnew
    · refine (hinv key amount bidder issue hbid hold).step hstep ?_
      rw [hissued]
      exact List.subset_append_left _ _
    · -- one press issues both writes
      have hboth : priceIssue key amount bidder ∈ issues ∧
          bidderIssue key amount bidder ∈ issues := by
        have hiff := Client.priceIssue_iff_bidderIssue hact key amount bidder
        rcases mem_bidIssues.mp hbid with rfl | rfl
        · exact ⟨hnew, hiff.mp hnew⟩
        · exact ⟨hiff.mpr hnew, hnew⟩
      refine ⟨⟨s, c, hprior, .step .refl trivial hstep, lawful_of_act hprior hact hbid hnew⟩, ?_⟩
      rw [hissued]
      exact ⟨List.mem_append_right _ hboth.1, List.mem_append_right _ hboth.2⟩

end Bids

end System

end Auctioneer
