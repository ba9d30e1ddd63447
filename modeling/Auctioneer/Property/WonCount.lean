import Auctioneer.Proof.Provenance

/-!
The counter of won auctions. The first visit of the Won tab asks for Products
and for Users; the Users callback writes the length that the list has when it
runs.
-/

namespace Auctioneer

/-- How many products are closed at `now` and have the user as highest bidder. -/
def Database.wonBy (zone : TimeZone) (now : Date) (userName : String) (db : Database) : ℕ :=
  db.products.entries.countP fun entry =>
    entry.2.ClosedAt zone now ∧ castString (entry.2 .highestbidder) = some userName

/-- Which of the two snapshots arrives first. -/
inductive Arrival where
  | productsFirst | usersFirst

/-- The instants at which the two callbacks run. -/
structure Visit where
  arrival : Arrival
  products : Date
  users : Date

/-- What the Users callback then counts is true. -/
def Visit.Counts (zone : TimeZone) (userName : String) (db : Database) (visit : Visit) : Prop :=
  match visit.arrival with
  | .productsFirst => db.wonBy zone visit.products userName = db.wonBy zone visit.users userName
  | .usersFirst => db.wonBy zone visit.users userName = 0

instance (zone : TimeZone) (userName : String) (db : Database) (visit : Visit) :
    Decidable (visit.Counts zone userName db) := by
  unfold Visit.Counts
  split <;> infer_instance

/-- A callback at `now` that is given the state `db`. -/
def Env.showing (zone : TimeZone) (now : Date) (db : Database) : Env :=
  { zone, now, later := now, snapshots := [db], freshKey := 0 }

def Reaction.issues : Reaction → Option (List Issue)
  | .crash => none
  | .done _ issues => some issues

/-- The value that a write gives to a field of a user. -/
def Issue.userValue (issue : Issue) : Option Value :=
  match issue.write with
  | .updateUser _ _ value => some value
  | _ => none

namespace Client

/-- The Won tab is selected for the first time and both snapshots show `db`:
what its Users callback writes. A Products callback that comes later writes
nothing. -/
def firstVisit (zone : TimeZone) (client : Client) (bar : TabBar) (db : Database)
    (visit : Visit) : Option (List Issue) :=
  let opened := client.loadAuctionWon bar
  let products := opened.act (.showing zone visit.products db)
    (.productsEvent client.listScreens.length 0)
  let users := fun shown : Client => (shown.act (.showing zone visit.users db)
    (.usersEvent client.tasks.length 0)).bind Reaction.issues
  match visit.arrival with
  | .usersFirst => users opened
  | .productsFirst =>
      match products with
      | some (.done shown _) => users shown
      | _ => none

variable {zone : TimeZone} {now : Date} {client : Client} {bar : TabBar} {db : Database}
  {userName : String} {issues : List Issue}

/-- The length of the Won list made of one snapshot. -/
theorem length_auctionWon {items : List AuctionItem}
    (h : AuctionWonViewController.retrieveData zone now (some userName) db = some items) :
    items.length = db.wonBy zone now userName := by
  simp only [AuctionWonViewController.retrieveData, keepFor, Option.bind_eq_bind,
    Option.bind_eq_some_iff, Option.some.injEq] at h
  obtain ⟨dictionary, hdictionary, rfl⟩ := h
  rw [← List.countP_eq_length_filter, Database.wonBy]
  symm
  refine Traverse.countP_eq hdictionary ?_
  rintro ⟨key, record⟩ _ item hdecode
  have hread := AuctionItem.decode_readFrom hdecode
  have hbidder := castString_eq_some.mpr hread.highestbidder
  rw [Bool.eq_iff_iff]
  simp only [decide_eq_true_eq, hread.closedAt_iff, hbidder, Option.some.injEq,
    AuctionWonViewController.keeps, Bool.and_eq_true, Bool.not_eq_true', and_comm]

/-- The Users callback of a Won screen: every write is of the length that its
list has, and there is one. -/
theorem countWon_issues {task screen : ℕ} {author : Option String} {list : ListScreen}
    (htask : client.tasks[task]? = some ⟨.countWon screen, author⟩)
    (hlist : client.listScreens[screen]? = some list)
    (huser : client.signedInUserName = some userName)
    (hstored : ∃ key, db.username key = some userName)
    (h : (client.act (.showing zone now db) (.usersEvent task 0)).bind Reaction.issues =
      some issues) (count : ℕ) :
    (∀ issue ∈ issues, ∃ key, issue.write = .updateUser key .AuctionsWon (.number count)) ↔
      list.auctionItemList.length = count := by
  obtain ⟨reaction, hact, hissues⟩ := Option.bind_eq_some_iff.mp h
  cases reaction with
  | crash => cases hissues
  | done client' issues' =>
      obtain rfl : issues' = issues := Option.some.inj hissues
      obtain ⟨pending, users, writes, hpending, husers, hwrites, _, rfl⟩ :=
        usersEvent_eq_done (act_usersEvent hact)
      obtain rfl := Option.some.inj (htask.symm.trans hpending)
      obtain rfl : db = users := by simpa [Env.showing] using husers
      simp only [taskWrites, hlist, Option.elim_some, Option.some.injEq, huser] at hwrites
      constructor
      · intro hall
        obtain ⟨key, hkey⟩ := hstored
        obtain ⟨new, hnew⟩ := exists_ownUpdate hwrites hkey
        obtain ⟨key', new', _, _, heq, _, _, _, hvalue⟩ := mem_ownUpdates hwrites hnew
        obtain ⟨_, hwrite⟩ := hall _ (List.mem_map_of_mem hnew)
        obtain ⟨rfl, _, rfl⟩ := Write.updateUser.inj heq
        obtain ⟨_, _, rfl⟩ := Write.updateUser.inj hwrite
        have hsame := Value.number.inj (Option.some.inj hvalue)
        exact_mod_cast hsame
      · rintro rfl issue hissue
        obtain ⟨write, hwrite, rfl⟩ := List.mem_map.mp hissue
        obtain ⟨key, new, _, _, rfl, _, _, _, hvalue⟩ := mem_ownUpdates hwrites hwrite
        exact ⟨key, by rw [Option.some.inj hvalue]⟩

/-- The count that the first visit writes is true exactly when Products comes
first and as many of the user's products are closed then as when Users comes,
or Users comes first and the user has won nothing. -/
theorem counts_wins_iff (zone : TimeZone) (client : Client) (bar : TabBar) (db : Database)
    (visit : Visit) (hbar : bar.auctionWon = none)
    (huser : client.signedInUserName = some userName)
    (hstored : ∃ key, db.username key = some userName)
    (h : client.firstVisit zone bar db visit = some issues) :
    (∀ issue ∈ issues, ∃ key, issue.write =
      .updateUser key .AuctionsWon (.number (db.wonBy zone visit.users userName))) ↔
        visit.Counts zone userName db := by
  have htask : (client.loadAuctionWon bar).tasks[client.tasks.length]? =
      some ⟨.countWon client.listScreens.length, client.signedInUserName⟩ := by
    simp [loadAuctionWon, hbar]
  have hlist : (client.loadAuctionWon bar).listScreens[client.listScreens.length]? =
      some ⟨.auctionWon, 1, []⟩ := by
    simp [loadAuctionWon, hbar]
  have hsigned : (client.loadAuctionWon bar).signedInUserName = some userName := by
    simp [loadAuctionWon, hbar, huser]
  cases harrival : visit.arrival with
  | usersFirst =>
      simp only [firstVisit, harrival] at h
      rw [countWon_issues htask hlist hsigned hstored h, Visit.Counts, harrival]
      exact eq_comm
  | productsFirst =>
      simp only [firstVisit, harrival] at h
      split at h
      · next shown _ hact =>
        obtain ⟨list, db', items, hlist', hdb, hitems, rfl⟩ :=
          productsEvent_eq_done (act_productsEvent hact)
        obtain rfl := Option.some.inj (hlist.symm.trans hlist')
        obtain rfl : db' = db := by simpa [Env.showing] using hdb
        have hwon : AuctionWonViewController.retrieveData zone visit.products (some userName)
            db' = some items := by
          rw [← hsigned]
          exact hitems
        have hlength := length_auctionWon hwon
        have htask' : ((client.loadAuctionWon bar).showItems client.listScreens.length
            items).tasks[client.tasks.length]? =
              some ⟨.countWon client.listScreens.length, client.signedInUserName⟩ := htask
        have hlist' : ((client.loadAuctionWon bar).showItems client.listScreens.length
            items).listScreens[client.listScreens.length]? = some ⟨.auctionWon, 1,
              List.range' (client.loadAuctionWon bar).heap.length items.length⟩ := by
          simp [showItems, hlist]
        have hsigned' : ((client.loadAuctionWon bar).showItems client.listScreens.length
            items).signedInUserName = some userName := hsigned
        have hcounts := countWon_issues htask' hlist' hsigned' hstored h
        rw [hcounts, Visit.Counts, harrival, List.length_range', hlength]
      · cases h

/-- Amy's record is in Users, and Sue's lamp is hers once it is closed. -/
def lampWon : Database :=
  (Write.setUser 1 (SignUpViewController.userRecord "amy" "q")).apply Scenario.lampSold

def amy : Client := Client.launch.presentMain (.showing (TimeZone.fixed 480) 0 lampWon) 1 "amy"

def freshBar : TabBar :=
  { selectedIndex := .homeFeed, homeFeed := 0, homeFeedDetails := none, form := .fresh 0,
    yourListing := none, yourListingsDetails := none, auctionWon := none,
    auctionWonDetails := none, profile := none }

/-- Both snapshots arrive after the auction has closed, Users first or last. -/
def afterClosing (arrival : Arrival) : Visit := ⟨arrival, Scenario.closed, Scenario.closed⟩

theorem counts_wins_products_first :
    ∃ issues, amy.firstVisit (TimeZone.fixed 480) freshBar lampWon
      (afterClosing .productsFirst) = some issues ∧
    lampWon.wonBy (TimeZone.fixed 480) Scenario.closed "amy" = 1 ∧
    ∀ issue ∈ issues, ∃ key, issue.write = .updateUser key .AuctionsWon
      (.number (lampWon.wonBy (TimeZone.fixed 480) Scenario.closed "amy")) := by
  obtain ⟨issues, hissues⟩ := Option.isSome_iff_exists.mp
    (show (amy.firstVisit (TimeZone.fixed 480) freshBar lampWon
      (afterClosing .productsFirst)).isSome by decide +kernel)
  refine ⟨issues, hissues, by decide +kernel, ?_⟩
  exact (counts_wins_iff _ amy freshBar lampWon _ rfl rfl ⟨1, by decide +kernel⟩ hissues).mpr
    (by decide +kernel)

/-- Users arrives first: the list is still empty, and 0 is written. -/
theorem not_counts_wins :
    ¬ ∀ (zone : TimeZone) (client : Client) (bar : TabBar) (db : Database) (visit : Visit)
      (userName : String) (issues : List Issue), bar.auctionWon = none →
      client.signedInUserName = some userName → (∃ key, db.username key = some userName) →
      client.firstVisit zone bar db visit = some issues →
      ∀ issue ∈ issues, ∃ key, issue.write =
        .updateUser key .AuctionsWon (.number (db.wonBy zone visit.users userName)) := by
  intro hcounts
  obtain ⟨issues, hissues, issue, hissue, hzero⟩ : ∃ issues ∈ amy.firstVisit
      (TimeZone.fixed 480) freshBar lampWon (afterClosing .usersFirst),
      ∃ issue ∈ issues, issue.userValue = some (.number 0) := by
    decide +kernel
  have hone : lampWon.wonBy (TimeZone.fixed 480) Scenario.closed "amy" = 1 := by decide +kernel
  obtain ⟨key, hwrite⟩ := hcounts (TimeZone.fixed 480) amy freshBar lampWon
    (afterClosing .usersFirst) "amy" issues rfl rfl ⟨1, by decide +kernel⟩ hissues issue hissue
  simp [Issue.userValue, hwrite, afterClosing, hone] at hzero

end Client

end Auctioneer
