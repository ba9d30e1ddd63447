import Auctioneer.Proof.Bids
import Auctioneer.Property.UniqueNames
import Auctioneer.Property.WellFormed

/-!
Who wins. `Submit_Auction` stores "-" as the bidder of a product that nobody has
bid on, and sign-up accepts that name.
-/

namespace Auctioneer

open HomeFeedDetailsViewController

/-- The product is in the Won list of the user. -/
def Database.WonBy (zone : TimeZone) (t : Date) (db : Database) (user key : Key) : Prop :=
  ∃ userName items, db.username user = some userName ∧
    AuctionWonViewController.retrieveData zone t (some userName) db = some items ∧
    ∃ item ∈ items, item.uniqueKey = key

/-- The dates of all products are dates in the zone. -/
def Database.DatesIn (zone : TimeZone) (db : Database) : Prop :=
  ∀ key record, db.products.lookup key = some record → record.DatesIn zone

/-- The Won lists that have a closed product are those of the users whose name
is the stored bidder. -/
theorem Database.wonBy_iff {zone : TimeZone} {t : Date} {db : Database} {key : Key}
    {record : ProductRecord} (hrecord : db.products.lookup key = some record)
    (hcomplete : ∀ key record, db.products.lookup key = some record → record.Complete)
    (hclosed : record.ClosedAt zone t) (user : Key) :
    db.WonBy zone t user key ↔
      db.DatesIn zone ∧ ∃ bidder, db.highestbidder key = some bidder ∧
        db.username user = some bidder := by
  constructor
  · rintro ⟨userName, items, huser, hitems, item, hitem, rfl⟩
    obtain ⟨⟨dictionary, hdictionary, hmem⟩, hbidder, _⟩ :=
      AuctionWonViewController.mem_of_retrieveData hitems hitem
    obtain ⟨record', hrecord', hread⟩ := exists_of_mem_decodeProducts hdictionary hmem
    have hdecodes : (decodeProducts zone t db).isSome := by simp [hdictionary]
    refine ⟨(decodeProducts_isSome_iff hcomplete).mp hdecodes, item.highestBidder, ?_,
      huser.trans hbidder⟩
    exact Database.highestbidder_eq_some.mpr
      (Database.productField_eq_some.mpr ⟨record', hrecord', hread.highestbidder⟩)
  · rintro ⟨hdates, bidder, hbidder, huser⟩
    have hdecodes : (decodeProducts zone t db).isSome :=
      (decodeProducts_isSome_iff hcomplete).mpr hdates
    obtain ⟨dictionary, hdictionary⟩ := Option.isSome_iff_exists.mp hdecodes
    obtain ⟨item, hitem, hread⟩ := exists_mem_of_lookup hdictionary hrecord
    have hnamed : item.highestBidder = bidder := by
      have hstored := Database.productField_eq_some.mpr ⟨record, hrecord, hread.highestbidder⟩
      exact Option.some.inj ((Database.highestbidder_eq_some.mpr hstored).symm.trans hbidder)
    refine ⟨bidder, dictionary.filter (AuctionWonViewController.keeps bidder), huser, ?_, item,
      List.mem_filter.mpr ⟨hitem, ?_⟩, hread.uniqueKey⟩
    · simp [AuctionWonViewController.retrieveData, hdictionary, keepFor]
    · simp [AuctionWonViewController.keeps, hnamed, hread.closedAt_iff.mp hclosed]

/-- A sign-up, an auction or a bid starts. -/
def Label.starts : Label → Bool
  | .act _ (.signUp _ _ _) | .act _ (.submitAuction _) | .act _ (.bidSubmit _) => true
  | _ => false

def Label.deletes : Label → Bool
  | .act _ .deleteListing => true
  | _ => false

/-- The snapshot that a sign-up reads. -/
def Label.signUpReads : Label → Option Nat
  | .act _ (.signUp snapshot _ _) => some snapshot
  | _ => none

namespace System

/-- Sign-ups, auctions and bids, and no deletions, one at a time: each starts
when every earlier write has arrived, and a sign-up reads what is then there. -/
def OneAtATime (s : System) (l : Label) : Prop :=
  l.deletes = false ∧ (l.starts = true → s.wire.isEmpty = true) ∧
    ∀ snapshot ∈ l.signUpReads, snapshot + 1 = s.states.length

instance (s : System) (l : Label) : Decidable (s.OneAtATime l) :=
  inferInstanceAs (Decidable (_ ∧ _ ∧ _))

/-- A bid on the product has been accepted. -/
def BidOn (key : Key) (s : System) : Prop :=
  ∃ amount bidder, bidderIssue key amount bidder ∈ s.net.issued

/-- One user has won the product if it has been bid on, and nobody otherwise. -/
def OneWinner (zone : TimeZone) (t : Date) (key : Key) (s : System) : Prop :=
  (s.BidOn key → ∃! user, s.db.WonBy zone t user key) ∧
    (¬ s.BidOn key → ∀ user, ¬ s.db.WonBy zone t user key)

/-- The Won lists can be computed if the product has been bid on; otherwise no
user has the name that stands for nobody, unless they cannot. -/
def NamesWinner (zone : TimeZone) (key : Key) (s : System) : Prop :=
  (s.BidOn key → s.db.DatesIn zone) ∧
    (¬ s.BidOn key → s.db.DatesIn zone → ∀ user, s.db.username user ≠ some "-")

variable {world : World} {now : Date} {s : System}

/-- A sign-up alone adds a name that is free. -/
theorem addsFreeName_of_oneAtATime (s : System) (l : Label) (hok : s.OneAtATime l) :
    s.AddsFreeName l := by
  intro name hname
  cases l with
  | act c action =>
      cases action with
      | signUp snapshot username password =>
          have hnow := Outbox.Net.states_last s.net (hok.2.2 snapshot rfl)
          simp only [addedName, System.states, hnow, Option.bind_eq_bind, Option.bind_some,
            Option.mem_def, Option.bind_eq_some_iff, Option.ite_none_right_eq_some,
            Option.some.injEq] at hname
          obtain ⟨outcome, houtcome, hadded, rfl⟩ := hname
          refine ⟨?_, ?_⟩
          · rcases SignUpViewController.record_of_signUpButton houtcome with
              hnone | ⟨_, names, hnames, hfree⟩
            · simp [hnone] at hadded
            · intro pairs hpairs htaken
              obtain ⟨name, hmem, hname⟩ := Traverse.mem_of_mem hnames hpairs
              obtain rfl := Option.some.inj (hname.symm.trans htaken)
              exact hfree hmem
          · have hquiet : s.wire = [] := List.isEmpty_iff.mp (hok.2.1 rfl)
            simp [hquiet]
      | _ => cases hname
  | _ => cases hname

/-- Nothing is removed. -/
theorem removes_nothing (h : ReachesUnder world OneAtATime now s) :
    ∀ issue ∈ s.net.issued, issue.removedKey = none := by
  refine issue_invariant (fun _ issue => issue.removedKey = none) (fun _ hinv => hinv) ?_ h
  intro s c action client issues _ hok hact issue hissue
  cases Client.act_issued hact issue hissue with
  | bid _ _ _ _ _ _ _ _ hbid => rcases mem_bidIssues.mp hbid with rfl | rfl <;> rfl
  | delete => cases hok.1
  | _ => rfl

/-- So a product that has been there still is. -/
theorem products_stay (h : ReachesUnder world OneAtATime now s) {db : Database}
    (hdb : db ∈ s.states) {key : Key} (hkey : (db.products.lookup key).isSome) :
    (s.db.products.lookup key).isSome := by
  refine db_stable (fun db => (db.products.lookup key).isSome) ?_ h db hdb hkey
  intro s sender issue hprior _ _ hwire hthere
  exact issue.products_kept (removes_nothing hprior issue ((honest hprior).mem_issued hwire))
    hthere

/-- And every bid reaches a product that is there. -/
theorem bidsOnProducts_of_oneAtATime {l : Label} (h : ReachesUnder world OneAtATime now s) :
    s.BidsOnProducts l := by
  intro sent hsent key hkey
  have hissued := (honest h).mem_issued (mem_wire_of_delivered hsent)
  obtain ⟨db, hdb, hthere⟩ := (issue_backed h _ hissued).of_bidKey hkey
  exact products_stay h hdb hthere

/-- The stored bidder of a product with no write on its way: one of those who
bid, or the placeholder. -/
theorem highestbidder_of_quiet (h : ReachesUnder world OneAtATime now s) (hquiet : s.wire = [])
    {key : Key} {record : ProductRecord} (hrecord : s.db.products.lookup key = some record)
    (hcomplete : record.Complete) :
    ∃ bidder, s.db.highestbidder key = some bidder ∧
      (s.BidOn key → ∃ user, s.db.username user = some bidder) ∧
      (¬ s.BidOn key → bidder = "-") := by
  obtain ⟨bidder, hstored⟩ := Option.isSome_iff_exists.mp hcomplete.highestbidder
  have hvalue : s.db.productField key .highestbidder = some (.string bidder) :=
    Database.productField_eq_some.mpr ⟨record, hrecord, castString_eq_some.mp hstored⟩
  have hbidder := Database.highestbidder_eq_some.mpr hvalue
  refine ⟨bidder, hbidder, ?_, ?_⟩
  · rintro ⟨_, _, hbid⟩
    obtain ⟨_, hwinner⟩ := bidder_of_quiet h hquiet hbidder hbid
    exact bidder_registered h hwinner
  · intro hnone
    obtain ⟨_, heq, hnobody | ⟨amount, hbid⟩⟩ :=
      bidder_origin h (Outbox.Net.db_mem_states _) hvalue
    · exact (Value.string.inj heq).trans hnobody
    · exact absurd ⟨amount, _, hbid⟩ hnone

variable {zone : TimeZone} {t : Date}

/-- After any operations one at a time, a closed product has its one winner, or
none, exactly when its bidder is named: the Won lists can be computed if it has
been bid on, and if it has not, no user is named "-". -/
theorem one_winner_iff (h : ReachesUnder world OneAtATime now s) (hquiet : s.wire = [])
    {key : Key} {record : ProductRecord} (hrecord : s.db.products.lookup key = some record)
    (hclosed : record.ClosedAt zone t) :
    s.OneWinner zone t key ↔ s.NamesWinner zone key := by
  have hcomplete := records_complete h (fun hprior _ => bidsOnProducts_of_oneAtATime hprior)
    _ (Outbox.Net.db_mem_states _)
  have hunique : s.db.UniqueUsernames :=
    (names_distinct (h.mono addsFreeName_of_oneAtATime)).stored
  obtain ⟨bidder, hbidder, hsold, hunsold⟩ :=
    highestbidder_of_quiet h hquiet hrecord (hcomplete key record hrecord)
  have hwon : ∀ user, s.db.WonBy zone t user key ↔
      s.db.DatesIn zone ∧ s.db.username user = some bidder := by
    intro user
    rw [Database.wonBy_iff hrecord hcomplete hclosed, hbidder]
    simp
  refine and_congr (forall_congr' fun hbid => ?_) (forall_congr' fun hnobid => ?_)
  · obtain ⟨winner, hwinner⟩ := hsold hbid
    constructor
    · rintro ⟨user, hlisted, _⟩
      exact ((hwon user).mp hlisted).1
    · intro hdates
      refine ⟨winner, (hwon winner).mpr ⟨hdates, hwinner⟩, ?_⟩
      intro user hlisted
      exact hunique user winner bidder ((hwon user).mp hlisted).2 hwinner
  · obtain rfl := hunsold hnobid
    simp only [hwon, not_and, ne_eq]
    exact ⟨fun hnone hdates user => hnone user hdates, fun hnone user hdates => hnone hdates user⟩

theorem one_winner_iff_of_lamp :
    ∃ s, ReachesUnder Scenario.world OneAtATime Scenario.opening s ∧ s.BidOn Scenario.lamp ∧
      (s.OneWinner (TimeZone.fixed 480) (Scenario.closing + 60) Scenario.lamp ↔
        s.NamesWinner (TimeZone.fixed 480) Scenario.lamp) := by
  obtain ⟨s, hreach, hquiet, ⟨record, hrecord, hclosed⟩, hbidder⟩ :
      ∃ s, ReachesUnder Scenario.world OneAtATime Scenario.opening s ∧ s.wire.isEmpty = true ∧
        (∃ record ∈ s.db.products.lookup Scenario.lamp,
          record.ClosedAt (TimeZone.fixed 480) (Scenario.closing + 60)) ∧
        s.db.highestbidder Scenario.lamp = some "amy" :=
    Machine.exists_reaches (Scenario.lampBid "20") (by decide +kernel) (by decide +kernel)
  obtain ⟨_, heq, hnobody | ⟨amount, hbid⟩⟩ := bidder_origin hreach
    (Outbox.Net.db_mem_states _) (Database.highestbidder_eq_some.mp hbidder)
  · rw [← Value.string.inj heq] at hnobody
    exact absurd hnobody (by decide)
  · exact ⟨s, hreach, ⟨amount, _, hbid⟩,
      one_winner_iff hreach (List.isEmpty_iff.mp hquiet) hrecord hclosed⟩

/-- A user signs up as "-", and nobody bids on the lamp. -/
def dashSignsUp : List Label :=
  Scenario.lampOpened ++ [.act 0 (.usersEvent 0 4), .deliver 0, .act 3 (.signUp 5 "-" "x"),
    .deliver 3]

theorem not_one_winner :
    ¬ ∀ (world : World) (now : Date) (s : System) (zone : TimeZone) (t : Date) (key : Key)
      (record : ProductRecord), ReachesUnder world OneAtATime now s → s.wire = [] →
      s.db.products.lookup key = some record → record.ClosedAt zone t →
      s.OneWinner zone t key := by
  intro hwinner
  obtain ⟨s, hreach, hquiet, ⟨record, hrecord, hclosed⟩, hnobid, hdash, items, hitems, item,
      hitem, hkey⟩ :
      ∃ s, ReachesUnder Scenario.world OneAtATime Scenario.opening s ∧ s.wire.isEmpty = true ∧
        (∃ record ∈ s.db.products.lookup Scenario.lamp,
          record.ClosedAt (TimeZone.fixed 480) (Scenario.closing + 60)) ∧
        (∀ issue ∈ s.net.issued, issue.bidKey = none) ∧ s.db.username 12 = some "-" ∧
        ∃ items ∈ AuctionWonViewController.retrieveData (TimeZone.fixed 480)
          (Scenario.closing + 60) (some "-") s.db,
          ∃ item ∈ items, item.uniqueKey = Scenario.lamp :=
    Machine.exists_reaches dashSignsUp (by decide +kernel) (by decide +kernel)
  have hunsold : ¬ s.BidOn Scenario.lamp := by
    rintro ⟨_, _, hbid⟩
    cases hnobid _ hbid
  exact (hwinner _ _ s _ _ _ record hreach (List.isEmpty_iff.mp hquiet) hrecord hclosed).2
    hunsold 12 ⟨"-", items, hdash, hitems, item, hitem, hkey⟩

end System

end Auctioneer
