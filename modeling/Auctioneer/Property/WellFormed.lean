import Auctioneer.Proof.Records

/-!
Product records over a run. The four decoders trap on a record that lacks a
field. `setValue` on one field of a product that is gone makes such a record,
and a date can be printed in one time zone and be no date in another.
-/

namespace Auctioneer

/-- Every product has all its fields, and no screen of a signed-in user on any
device traps on the snapshot. -/
structure Database.WellFormed (world : World) (db : Database) : Prop where
  complete : ∀ key record, db.products.lookup key = some record →
    ∀ field, (record field).isSome
  homeFeed : ∀ reader now,
    (HomeFeedViewController.retrieveData (world reader).zone now db).isSome
  yourListing : ∀ reader now userName,
    (YourListingViewController.retrieveData (world reader).zone now (some userName) db).isSome
  auctionWon : ∀ reader now userName,
    (AuctionWonViewController.retrieveData (world reader).zone now (some userName) db).isSome
  profile : ∀ reader now userName totals,
    (ProfileViewController.retrieveData (world reader).zone now (some userName) db totals).isSome

theorem Database.wellFormed_of_records {world : World} {db : Database}
    (hcomplete : ∀ key record, db.products.lookup key = some record → record.Complete)
    (hdates : ∀ key record, db.products.lookup key = some record →
      ∀ reader, record.DatesIn (world reader).zone) :
    db.WellFormed world := by
  have hdecodes : ∀ reader now, ∃ items,
      decodeProducts (world reader).zone now db = some items := by
    intro reader now
    exact Option.isSome_iff_exists.mp ((decodeProducts_isSome_iff hcomplete).mpr
      fun key record hlookup => hdates key record hlookup reader)
  refine ⟨fun key record hlookup => (hcomplete key record hlookup).isSome, ?_, ?_, ?_, ?_⟩
  all_goals
    intro reader now
    obtain ⟨items, hitems⟩ := hdecodes reader now
  · simp [HomeFeedViewController.retrieveData, hitems]
  · intro userName
    simp [YourListingViewController.retrieveData, hitems, keepFor]
  · intro userName
    simp [AuctionWonViewController.retrieveData, hitems, keepFor]
  · intro userName totals
    simp [ProfileViewController.retrieveData, hitems, keepFor]

namespace System

variable (world : World) (s : System)

/-- The record that a press of `Submit_Auction` is about to create. -/
def postedRecord : Label → Option ProductRecord
  | .act c (.submitAuction later) => do
      let bar ← (s.client c).tabBar
      let outcome ← OpenNewAuctionViewController.submitAuction (world c).zone bar.form
        (s.client c).signedInUserName ((world c).clock s.now) ((world c).clock later)
      match outcome with
      | .create record => some record
      | .alert _ => none
  | _ => none

/-- The dates of a new record are dates on every device. -/
def PostsDates (l : Label) : Prop :=
  ∀ record ∈ s.postedRecord world l, ∀ reader, record.DatesIn (world reader).zone

/-- A write of a bid is applied only while its product is there. -/
def BidsOnProducts (l : Label) : Prop :=
  ∀ sent ∈ s.delivered l, ∀ key ∈ sent.2.bidKey, (s.db.products.lookup key).isSome

instance (l : Label) : Decidable (s.BidsOnProducts l) :=
  inferInstanceAs (Decidable (∀ sent ∈ s.delivered l, _))

def KeepsRecords (l : Label) : Prop := s.PostsDates world l ∧ s.BidsOnProducts l

variable {world s} {now : Date}

/-- The dates of a record that is posted are dates on every device. -/
theorem posted_dates {c : ClientId} {action : Action} {client : Client}
    {issues : List Issue} (hok : s.PostsDates world (.act c action))
    (hact : (s.client c).act (s.env world c (action.ends s.now)) action =
      some (.done client issues)) :
    ∀ issue ∈ issues, ∀ key record, issue.write = .setProduct key record →
      ∀ reader, record.DatesIn (world reader).zone := by
  intro issue hissue key record hwrite
  cases Client.act_issued hact issue hissue with
  | auction later bar posted hbar hcreate =>
      obtain ⟨rfl, rfl⟩ := Write.setProduct.inj hwrite
      have hcreate' : OpenNewAuctionViewController.submitAuction (world c).zone bar.form
          (s.client c).signedInUserName ((world c).clock s.now) ((world c).clock later) =
            some (.create posted) := hcreate
      exact hok posted (by simp [postedRecord, hbar, hcreate'])
  | bid _ _ _ _ _ _ _ _ hbid =>
      rcases HomeFeedDetailsViewController.mem_bidIssues.mp hbid with rfl | rfl <;> cases hwrite
  | _ => cases hwrite

/-- While bids reach products that are there, every record is complete. -/
theorem records_complete {ok : System → Label → Prop} (h : ReachesUnder world ok now s)
    (hok : ∀ {s l}, ReachesUnder world ok now s → ok s l → s.BidsOnProducts l) :
    ∀ db ∈ s.states, ∀ key record, db.products.lookup key = some record →
      record.Complete := by
  refine db_invariant
    (fun db => ∀ key record, db.products.lookup key = some record → record.Complete)
    ?_ ?_ h
  · intro _ _ hlookup
    cases hlookup
  · intro s sender issue hprior hstep hdelivered hwire hinv
    have hissued := (honest hprior).mem_issued hwire
    exact (issue_backed hprior issue hissued).complete (hok hprior hstep _ hdelivered)
      (hinv _ (Outbox.Net.db_mem_states _))

/-- While new records have dates for every device, so does every record: no
write changes the dates. -/
theorem records_dates (h : ReachesUnder world (KeepsRecords world) now s)
    {db : Database} (hdb : db ∈ s.states) {key : Key} {record : ProductRecord}
    (hrecord : db.products.lookup key = some record) (hcomplete : record.Complete)
    (reader : ClientId) : record.DatesIn (world reader).zone := by
  have hposted := issue_invariant
    (fun _ issue => ∀ key record, issue.write = .setProduct key record →
      ∀ reader, ProductRecord.DatesIn (world reader).zone record)
    (fun _ hinv => hinv) (fun _ hok hact => posted_dates hok.1 hact) h
  have hfield : ∀ field, field ≠ .highestbidprice → field ≠ .highestbidder →
      ∃ created, s.Created key created ∧ created field = record field := by
    intro field hprice hbidder
    obtain ⟨value, hvalue⟩ := Option.isSome_iff_exists.mp (hcomplete.isSome field)
    obtain ⟨created, hcreated, hsame⟩ := field_created h hdb hprice hbidder
      (Database.productField_eq_some.mpr ⟨record, hrecord, hvalue⟩)
    exact ⟨created, hcreated, hsame.trans hvalue.symm⟩
  obtain ⟨created, hcreated, hopendate⟩ := hfield .opendate (by simp) (by simp)
  obtain ⟨created', hcreated', hclosedate⟩ := hfield .closedate (by simp) (by simp)
  obtain rfl := created_unique h hcreated hcreated'
  obtain ⟨_, hissue⟩ := hcreated
  have hdates := hposted _ hissue key created rfl reader
  rwa [ProductRecord.DatesIn, hopendate, hclosedate] at hdates

/-- While new records have dates for every device and bids reach products that
are there, every state of Products decodes on every screen. -/
theorem records_wellFormed (h : ReachesUnder world (KeepsRecords world) now s) :
    ∀ db ∈ s.states, db.WellFormed world := by
  have hcomplete := records_complete h fun _ hok => hok.2
  intro db hdb
  refine Database.wellFormed_of_records (hcomplete db hdb) ?_
  intro key record hrecord reader
  exact records_dates h hdb hrecord (hcomplete db hdb key record hrecord) reader

theorem records_wellFormed_of_bid :
    ∃ s, ReachesUnder Scenario.world (KeepsRecords Scenario.world) Scenario.opening s ∧
      s.db.highestbidder Scenario.lamp = some "amy" ∧
      ∀ db ∈ s.states, db.WellFormed Scenario.world := by
  -- every device of this world is in one zone
  have hzone : ∀ (s : System) l, ((∀ record ∈ s.postedRecord Scenario.world l,
      record.DatesIn (TimeZone.fixed 480)) ∧ s.BidsOnProducts l) →
        s.KeepsRecords Scenario.world l :=
    fun _ _ hok => ⟨fun record hrecord _ => hok.1 record hrecord, hok.2⟩
  obtain ⟨s, hreach, hbidder⟩ : ∃ s, ReachesUnder Scenario.world (fun s l =>
      (∀ record ∈ s.postedRecord Scenario.world l, record.DatesIn (TimeZone.fixed 480)) ∧
        s.BidsOnProducts l) Scenario.opening s ∧
      s.db.highestbidder Scenario.lamp = some "amy" :=
    Machine.exists_reaches (Scenario.lampBid "20") (by decide +kernel) (by decide +kernel)
  exact ⟨s, hreach.mono hzone, hbidder, records_wellFormed (hreach.mono hzone)⟩

/-- Sue deletes the lamp while Amy has its details open, and Amy bids. -/
def bidAfterDelete : List Label :=
  Scenario.lampOpened ++ Scenario.openFirst 1 4 ++
    [.act 0 (.selectTab .yourListing), .act 0 (.productsEvent 1 4), .act 0 (.selectRow 0),
      .act 0 .deleteListing, .deliver 0, .act 1 (.bidSubmit "20"), .deliver 1]

theorem not_records_wellFormed :
    ¬ ∀ (world : World) (now : Date) (s : System), Reachable world now s →
      ∀ db ∈ s.states, db.WellFormed world := by
  intro hwellFormed
  obtain ⟨s, hreach, hprice, hname⟩ : ∃ s, Reachable Scenario.world Scenario.opening s ∧
      s.db.productField Scenario.lamp .highestbidprice = some (.number 20) ∧
      s.db.productField Scenario.lamp .productname = none :=
    Machine.exists_reachable bidAfterDelete (by decide +kernel)
  obtain ⟨record, hrecord, _⟩ := Database.productField_eq_some.mp hprice
  have hfield := (hwellFormed _ _ s hreach s.db (Outbox.Net.db_mem_states _)).complete
    Scenario.lamp record hrecord .productname
  simp only [Database.productField, hrecord, Option.bind_some] at hname
  simp [hname] at hfield

end System

end Auctioneer
