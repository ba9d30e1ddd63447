import Auctioneer.Property.BiddingScreen
import Auctioneer.Property.Removal
import Auctioneer.Property.UserRecords

/-!
Every way to crash an app. In a reachable state a trap has one of four causes:
the snapshot of a list or of the profile has a record that a late bid left of a
removed product, or dates that are none in the zone of the device; the product
of a details screen has been removed; a bid is pressed before the price is
known; or an amount is not a finite number.
-/

namespace Auctioneer

open HomeFeedDetailsViewController

namespace Client

/-- A list screen and a profile have been built by someone who is signed in, and
the details screen of a listing shows a selected item. -/
structure Opened (client : Client) : Prop where
  lists : client.listScreens ≠ [] → client.signedInUserName.isSome
  profiles : client.profileScreens ≠ [] → client.signedInUserName.isSome
  listing : ∀ bar, client.tabBar = some bar → bar.yourListingsDetails.isSome →
    client.selectedToViewAuctionItem.isSome

variable {env : Env} {client client' : Client} {action : Action} {issues : List Issue}

/-- Another tab bar with the details screens of before, or fewer. -/
theorem Opened.of_tabBar (h : client.Opened) (hsigned : client.signedInUserName.isSome)
    {bar bar' : TabBar} {listScreens : List ListScreen}
    {profileScreens : List ProfileViewController.Screen} {tasks : List UserTask}
    (hbar : client.tabBar = some bar)
    (hdetails : bar'.yourListingsDetails.isSome → bar.yourListingsDetails.isSome) :
    Opened { client with listScreens, profileScreens, tasks, tabBar := some bar' } where
  lists := fun _ => hsigned
  profiles := fun _ => hsigned
  listing := by
    intro shown hshown hsome
    obtain rfl := Option.some.inj hshown
    exact h.listing bar hbar (hdetails hsome)

theorem Opened.act (h : client.Opened) (hsound : client.Sound)
    (hact : client.act env action = some (.done client' issues)) : client'.Opened := by
  cases act_effect hact with
  | worked => exact ⟨h.lists, h.profiles, h.listing⟩
  | turned _ _ bar _ hbar hkeeps =>
      refine h.of_tabBar (hsound.session bar hbar) hbar fun hsome => ?_
      rcases hkeeps.yourListingsDetails with heq | hnone
      · rwa [← heq]
      · simp [hnone] at hsome
  | dismissed =>
      refine ⟨h.lists, h.profiles, ?_⟩
      intro _ hbar
      cases hbar
  | presented =>
      refine ⟨fun _ => rfl, fun _ => rfl, ?_⟩
      intro bar hbar hsome
      obtain rfl := Option.some.inj hbar
      cases hsome
  | yourListing bar hbar => exact h.of_tabBar (hsound.session bar hbar) hbar id
  | auctionWon _ bar hbar => exact h.of_tabBar (hsound.session bar hbar) hbar id
  | profile bar _ hbar => exact h.of_tabBar (hsound.session bar hbar) hbar id
  | redrawn => exact ⟨h.lists, fun _ => h.profiles (by rintro heq; simp_all), h.listing⟩
  | pushed row bar screen list ref item hbar =>
      have hsigned := hsound.session bar hbar
      refine ⟨fun _ => by rwa [pushDetails_signedInUserName],
        fun _ => by rwa [pushDetails_signedInUserName], ?_⟩
      intro shown hshown hsome
      unfold pushDetails at hshown ⊢
      cases htab : bar.selectedIndex with
      | openNewAuction =>
          rw [htab] at hshown
          exact h.listing shown hshown hsome
      | profile =>
          rw [htab] at hshown
          exact h.listing shown hshown hsome
      | _ => rfl
  | refreshed => exact ⟨fun _ => h.lists (by rintro heq; simp_all), h.profiles, h.listing⟩
  | listed => exact ⟨fun _ => h.lists (by rintro heq; simp_all), h.profiles, h.listing⟩
  | priced => exact ⟨h.lists, h.profiles, h.listing⟩
  | priceRead => exact ⟨h.lists, h.profiles, h.listing⟩

theorem Reachable.opened (h : Reachable client) : client.Opened := by
  refine h.invariant Opened
    ⟨fun hne => absurd rfl hne, fun hne => absurd rfl hne, fun _ hbar => by cases hbar⟩ ?_
  intro client event client' hprior hopened _ htaken
  rcases step_eq_some htaken with rfl | ⟨issues, hact⟩
  · exact ⟨hopened.lists, hopened.profiles, hopened.listing⟩
  · exact hopened.act (Reachable.sound hprior) hact

end Client

/-- What the list callbacks cannot decode: a record without the fields of an
auction, or one with a date that is none in the zone. -/
def Database.Undecodable (db : Database) (zone : TimeZone) : Prop :=
  ∃ key record, db.products.lookup key = some record ∧
    (db.Gone key ∨ record.Complete ∧ ¬ record.DatesIn zone)

/-- The product is not there, or without its price or its bidder. -/
def Database.Unpriced (db : Database) (key : Key) : Prop :=
  db.productField key .highestbidprice = none ∨ db.productField key .highestbidder = none

/-- What every state of the database is like: records of Users that can be read,
auctions with all their fields, and of removed ones the price and the bidder. -/
structure Database.Regular (db : Database) : Prop where
  users : db.UsersReadable
  products : ∀ key record, db.products.lookup key = some record → record.Complete ∨ db.Gone key
  price : ∀ key value, db.productField key .highestbidprice = some value →
    ∃ price, value = .number price
  bidder : ∀ key value, db.productField key .highestbidder = some value →
    ∃ bidder, value = .string bidder

namespace Database

variable {world : World} {dbs : List Database} {db : Database} {issue : Issue}

/-- A bid on an auction that is there. -/
theorem complete_of_bid {key : Key} {old record : ProductRecord} {amount : Price}
    {bidder : String} (hold : db.products.lookup key = some old) (hcomplete : old.Complete)
    {at' : Key} (hissue : issue ∈ bidIssues at' amount bidder)
    (hrecord : (issue.apply db).products.lookup key = some record) : record.Complete := by
  rcases mem_bidIssues.mp hissue with rfl | rfl
  all_goals
    simp only [Issue.apply, Write.apply, Table.lookup_setField, priceIssue,
      bidderIssue] at hrecord
    split at hrecord
  · next heq =>
    subst heq
    rw [hold, Option.getD_some] at hrecord
    obtain rfl := Option.some.inj hrecord
    exact { hcomplete with highestbidprice := rfl }
  · obtain rfl := Option.some.inj (hold.symm.trans hrecord)
    exact hcomplete
  · next heq =>
    subst heq
    rw [hold, Option.getD_some] at hrecord
    obtain rfl := Option.some.inj hrecord
    exact { hcomplete with highestbidder := rfl }
  · obtain rfl := Option.some.inj (hold.symm.trans hrecord)
    exact hcomplete

/-- A write leaves auctions whole, or what a late bid makes of a removed one. -/
theorem complete_or_gone_apply (hbacked : issue.Backed world dbs)
    (h : ∀ key record, db.products.lookup key = some record → record.Complete ∨ db.Gone key) :
    ∀ key record, (issue.apply db).products.lookup key = some record →
      record.Complete ∨ (issue.apply db).Gone key := by
  intro key record hrecord
  by_cases hgone : db.Gone key ∧ issue.creates ≠ some key
  · exact .inr (hgone.1.apply hbacked hgone.2)
  cases hbacked with
  | auction c created form later opener price =>
      simp only [Issue.apply, Write.apply, Table.lookup_insert'] at hrecord
      split at hrecord
      · obtain rfl := Option.some.inj hrecord
        exact .inl ⟨rfl, rfl, rfl, rfl, rfl, rfl, rfl, rfl⟩
      · next hne =>
        have hother : ¬ db.Gone key := fun hdb =>
          hgone ⟨hdb, fun hcreates => hne (Option.some.inj hcreates).symm⟩
        exact .inl ((h key record hrecord).resolve_right hother)
  | bid _ item amount bidder _ _ _ _ hbid =>
      have hcreates : issue.creates ≠ some key := by
        rcases mem_bidIssues.mp hbid with rfl | rfl <;> intro hcreates <;> cases hcreates
      have hthere : ¬ db.Gone key := fun hdb => hgone ⟨hdb, hcreates⟩
      cases hold : db.products.lookup key with
      | none => exact absurd (gone_of_lookup hold) hthere
      | some old =>
          have hcomplete := (h key old hold).resolve_right hthere
          exact .inl (complete_of_bid hold hcomplete hbid hrecord)
  | delete _ item =>
      have hthere : ¬ db.Gone key := fun hdb => hgone ⟨hdb, fun hcreates => by cases hcreates⟩
      simp only [Issue.apply, Write.apply, Table.lookup_erase',
        Option.ite_none_left_eq_some] at hrecord
      exact .inl ((h key record hrecord.2).resolve_right hthere)
  | signUp => exact h key record hrecord
  | task => exact h key record hrecord

/-- A record whose dates can be read is none that a late bid left. -/
theorem Gone.not_datesIn {key : Key} {record : ProductRecord} (h : db.Gone key)
    (hrecord : db.products.lookup key = some record) (zone : TimeZone) :
    ¬ record.DatesIn zone := by
  rintro ⟨hopendate, _⟩
  have hfield : record .opendate = none := by
    simpa [productField, hrecord] using h .opendate (by decide) (by decide)
  simp [hfield, castString] at hopendate

theorem Regular.decodeProducts_eq_none_iff (h : db.Regular) (zone : TimeZone) (now : Date) :
    decodeProducts zone now db = none ↔ db.Undecodable zone := by
  constructor
  · intro hdecode
    by_contra hdecodable
    have hall : ∀ pairs ∈ db.products.entries,
        (AuctionItem.decode zone now pairs.1 pairs.2).isSome := by
      rintro ⟨key, record⟩ hentry
      have hlookup := mem_entries_iff.mp hentry
      rcases h.products key record hlookup with hcomplete | hgone
      · refine hcomplete.decode_isSome ?_
        by_contra hdates
        exact hdecodable ⟨key, record, hlookup, .inr ⟨hcomplete, hdates⟩⟩
      · exact absurd ⟨key, record, hlookup, .inl hgone⟩ hdecodable
    have hsome : (decodeProducts zone now db).isSome := Traverse.isSome_of_forall hall
    simp [hdecode] at hsome
  · rintro ⟨key, record, hlookup, hbad⟩
    cases hdecode : decodeProducts zone now db with
    | none => rfl
    | some items =>
        obtain ⟨item, _, hread⟩ := exists_mem_of_lookup hdecode hlookup
        rcases hbad with hgone | ⟨_, hdates⟩
        · exact absurd hread.datesIn (hgone.not_datesIn hlookup zone)
        · exact absurd hread.datesIn hdates

/-- The casts of the two observers of one product. -/
theorem Regular.unpriced_iff (h : db.Regular) (key : Key) :
    db.Unpriced key ↔ ∀ value, db.products.lookup key = some value →
      (castString (value .highestbidder)).isSome →
      (castDouble (value .highestbidprice)).isSome = false := by
  cases hlookup : db.products.lookup key with
  | none => simp [Unpriced, productField, hlookup]
  | some record =>
      have hprice := h.price key
      have hbidder := h.bidder key
      simp only [Unpriced, productField, hlookup, Option.bind_some] at hprice hbidder ⊢
      cases hp : record .highestbidprice with
      | none => simp [castDouble, hp]
      | some price =>
          obtain ⟨price, rfl⟩ := hprice price hp
          cases hb : record .highestbidder with
          | none => simp [castString, hb]
          | some bidder =>
              obtain ⟨bidder, rfl⟩ := hbidder bidder hb
              simp [castString, castDouble, Value.asString, Value.asDouble, hp, hb]

end Database

namespace Client

/-- A press of `Bid_Submit` unwraps a `minimumBid` that is not there, or a text
that is no number, or places an infinite amount. -/
def BadPress (item : AuctionItem) (userName text : String) (minimumBid : Option Price)
    (now : Date) : Prop :=
  item.openedBy ≠ userName ∧
    (text = "" ∧ minimumBid = none ∨
      text ≠ "" ∧ Date.isBetween now item.openDate item.closeDate = true ∧
        ∀ amount ∈ Double.ofText text,
          if passesPriceTest item amount then ∀ price, amount ≠ .finite price
          else minimumBid = none)

/-- A form that `Submit_Auction` takes, with a starting price that is no finite
number. -/
def BadForm (form : OpenNewAuctionViewController.Form) (now : Date) : Prop :=
  form.didUploadImage = true ∧ form.itemName ≠ "" ∧ form.startingPrice ≠ "" ∧
    now ≤ form.closingDate ∧ ∀ price, Double.ofText form.startingPrice ≠ some (.finite price)

/-- The events that trap. -/
inductive Traps (env : Env) (client : Client) : Action → Prop where
  | list (screen snapshot : Nat) (shown : ListScreen) (db : Database) :
      client.listScreens[screen]? = some shown → shown.observers ≠ 0 →
      env.snapshots[snapshot]? = some db → db.Undecodable env.zone →
      Traps env client (.productsEvent screen snapshot)
  | profile (screen snapshot : Nat) (shown : ProfileViewController.Screen) (db : Database) :
      client.profileScreens[screen]? = some shown → env.snapshots[snapshot]? = some db →
      db.Undecodable env.zone → Traps env client (.profileProductsEvent screen snapshot)
  | details (screen snapshot : Nat) (shown : Screen) (db : Database) :
      client.detailScreens[screen]? = some shown → env.snapshots[snapshot]? = some db →
      db.Unpriced shown.product → Traps env client (.detailsEvent screen snapshot)
  | priceRead (read snapshot : Nat) (product : Key) (db : Database) :
      client.priceReads[read]? = some product → env.snapshots[snapshot]? = some db →
      db.Unpriced product → Traps env client (.priceRead read snapshot)
  | press (text : String) (bar : TabBar) (screen : Nat) (shown : Screen) (item : AuctionItem)
      (userName : String) :
      client.tabBar = some bar → bar.selectedIndex = .homeFeed →
      bar.homeFeedDetails = some screen → client.detailScreens[screen]? = some shown →
      client.selectedItem = some item → client.signedInUserName = some userName →
      BadPress item userName text shown.minimumBid env.now →
      Traps env client (.bidSubmit text)
  | form (later : Date) (bar : TabBar) :
      client.tabBar = some bar → bar.selectedIndex = .openNewAuction →
      BadForm bar.form env.now → Traps env client (.submitAuction later)

variable {env : Env} {client : Client}

@[simp] theorem orCrash_eq_crash {α : Type} {outcome : Option α} {next : α → Reaction}
    (hnext : ∀ result, next result ≠ .crash) :
    Reaction.orCrash outcome next = .crash ↔ outcome = none := by
  cases outcome <;> simp [Reaction.orCrash, hnext]

/-- With somebody signed in, a list callback goes as far as the decoding does. -/
theorem retrieveData_isNone (huser : client.signedInUserName.isSome) (kind : ListKind)
    (db : Database) :
    (client.retrieveData env kind db).isNone = (decodeProducts env.zone env.now db).isNone := by
  obtain ⟨userName, huser⟩ := Option.isSome_iff_exists.mp huser
  cases hdecode : decodeProducts env.zone env.now db <;> cases kind <;>
    simp [retrieveData, HomeFeedViewController.retrieveData,
      YourListingViewController.retrieveData, AuctionWonViewController.retrieveData, keepFor,
      huser, hdecode]

theorem productsEvent_crash (hopened : client.Opened)
    (hregular : ∀ db ∈ env.snapshots, db.Regular) {screen snapshot : Nat} :
    client.productsEvent env screen snapshot = some .crash ↔
      client.Traps env (.productsEvent screen snapshot) := by
  have hnext : ∀ result : List AuctionItem,
      Reaction.done (client.showItems screen result) [] ≠ .crash := nofun
  simp only [productsEvent, Option.bind_eq_bind, Option.bind_eq_some_iff,
    Option.ite_none_left_eq_some, Option.some.injEq, orCrash_eq_crash hnext]
  constructor
  · rintro ⟨shown, hshown, db, hdb, hobserved, hnone⟩
    have huser := hopened.lists (by rintro hempty; simp [hempty] at hshown)
    rw [← Option.isNone_iff_eq_none, retrieveData_isNone huser, Option.isNone_iff_eq_none,
      (hregular db (List.mem_of_getElem? hdb)).decodeProducts_eq_none_iff] at hnone
    exact .list screen snapshot shown db hshown hobserved hdb hnone
  · intro htraps
    cases htraps with
    | list _ _ shown db hshown hobserved hdb hbad =>
        have huser := hopened.lists (by rintro hempty; simp [hempty] at hshown)
        refine ⟨shown, hshown, db, hdb, hobserved, ?_⟩
        rw [← Option.isNone_iff_eq_none, retrieveData_isNone huser, Option.isNone_iff_eq_none,
          (hregular db (List.mem_of_getElem? hdb)).decodeProducts_eq_none_iff]
        exact hbad

/-- With somebody signed in, the totals go as far as the decoding does, too. -/
theorem profile_retrieveData_eq_none {zone : TimeZone} {now : Date} {userName : String}
    {db : Database} {totals : ProfileViewController.Totals} :
    ProfileViewController.retrieveData zone now (some userName) db totals = none ↔
      decodeProducts zone now db = none := by
  cases hdecode : decodeProducts zone now db <;>
    simp [ProfileViewController.retrieveData, keepFor, hdecode]

theorem profileProductsEvent_crash (hopened : client.Opened)
    (hregular : ∀ db ∈ env.snapshots, db.Regular) {screen snapshot : Nat} :
    client.profileProductsEvent env screen snapshot = some .crash ↔
      client.Traps env (.profileProductsEvent screen snapshot) := by
  have hnone : ∀ (shown : ProfileViewController.Screen) db,
      client.profileScreens[screen]? = some shown → env.snapshots[snapshot]? = some db →
      (ProfileViewController.retrieveData env.zone env.now client.signedInUserName db
        shown.totals = none ↔ db.Undecodable env.zone) := by
    intro shown db hshown hdb
    obtain ⟨userName, huser⟩ := Option.isSome_iff_exists.mp
      (hopened.profiles (by rintro hempty; simp [hempty] at hshown))
    rw [huser, profile_retrieveData_eq_none,
      (hregular db (List.mem_of_getElem? hdb)).decodeProducts_eq_none_iff]
  constructor
  · intro hcrash
    simp only [profileProductsEvent, Option.bind_eq_bind, Option.bind_eq_some_iff,
      Option.some.injEq] at hcrash
    obtain ⟨shown, hshown, db, hdb, hcrash⟩ := hcrash
    rw [orCrash_eq_crash fun _ => by simp] at hcrash
    exact .profile screen snapshot shown db hshown hdb ((hnone shown db hshown hdb).mp hcrash)
  · intro htraps
    cases htraps with
    | profile _ _ shown db hshown hdb hbad =>
        simp [profileProductsEvent, hshown, hdb, (hnone shown db hshown hdb).mpr hbad,
          Reaction.orCrash]

theorem detailsEvent_crash (hsound : client.Sound)
    (hregular : ∀ db ∈ env.snapshots, db.Regular) {screen snapshot : Nat} :
    client.detailsEvent env screen snapshot = some .crash ↔
      client.Traps env (.detailsEvent screen snapshot) := by
  have hnone : ∀ shown db, client.detailScreens[screen]? = some shown →
      env.snapshots[snapshot]? = some db →
      (livePriceUpdate (db.products.lookup shown.product) client.selectedToViewAuctionItem
        client.heap shown = none ↔ db.Unpriced shown.product) := by
    intro shown db hshown hdb
    obtain ⟨item, hitem, _⟩ := hsound.captured shown (List.mem_of_getElem? hshown)
    rw [(hregular db (List.mem_of_getElem? hdb)).unpriced_iff, ← Option.not_isSome_iff_eq_none,
      livePriceUpdate_isSome_iff hitem]
    simp
  have hnext : ∀ result : Heap × Screen, Reaction.done
      { client with
        heap := result.1
        detailScreens := client.detailScreens.set screen result.2 } [] ≠ .crash := nofun
  simp only [detailsEvent, Option.bind_eq_bind, Option.bind_eq_some_iff, Option.some.injEq,
    orCrash_eq_crash hnext]
  constructor
  · rintro ⟨shown, hshown, db, hdb, hupdate⟩
    exact .details screen snapshot shown db hshown hdb ((hnone shown db hshown hdb).mp hupdate)
  · intro htraps
    cases htraps with
    | details _ _ shown db hshown hdb hbad =>
        exact ⟨shown, hshown, db, hdb, (hnone shown db hshown hdb).mpr hbad⟩

theorem priceRead_isSome_iff {snapshot : Option ProductRecord} {selected : Option Ref}
    {heap : Heap} :
    (YourListingsDetailsViewController.priceRead snapshot selected heap).isSome ↔
      ∃ value, snapshot = some value ∧ (castString (value .highestbidder)).isSome ∧
        (castDouble (value .highestbidprice)).isSome := by
  rcases snapshot with _ | value
  · simp [YourListingsDetailsViewController.priceRead]
  cases hbidder : castString (value .highestbidder) <;>
    cases hprice : castDouble (value .highestbidprice) <;>
    simp [YourListingsDetailsViewController.priceRead, hbidder, hprice]

theorem priceRead_crash (hregular : ∀ db ∈ env.snapshots, db.Regular) {read snapshot : Nat} :
    client.priceRead env read snapshot = some .crash ↔
      client.Traps env (.priceRead read snapshot) := by
  have hnone : ∀ product db, env.snapshots[snapshot]? = some db →
      (YourListingsDetailsViewController.priceRead (db.products.lookup product)
        client.selectedToViewAuctionItem client.heap = none ↔ db.Unpriced product) := by
    intro product db hdb
    rw [(hregular db (List.mem_of_getElem? hdb)).unpriced_iff, ← Option.not_isSome_iff_eq_none,
      priceRead_isSome_iff]
    simp
  have hnext : ∀ heap : Heap, Reaction.done
      { client with heap, priceReads := client.priceReads.eraseIdx read } [] ≠ .crash := nofun
  simp only [priceRead, Option.bind_eq_bind, Option.bind_eq_some_iff, Option.some.injEq,
    orCrash_eq_crash hnext]
  constructor
  · rintro ⟨product, hproduct, db, hdb, hupdate⟩
    exact .priceRead read snapshot product db hproduct hdb ((hnone product db hdb).mp hupdate)
  · intro htraps
    cases htraps with
    | priceRead _ _ product db hproduct hdb hbad =>
        exact ⟨product, hproduct, db, hdb, (hnone product db hdb).mpr hbad⟩

theorem place_eq_none_iff {amount : Double} :
    place amount = none ↔ ∀ price, amount ≠ .finite price := by
  cases amount <;> simp [place]

theorem bidSubmit_eq_none {item : AuctionItem} {userName text : String}
    {minimumBid : Option Price} {now : Date} :
    HomeFeedDetailsViewController.bidSubmit (some item) (some userName) minimumBid text now =
      none ↔ BadPress item userName text minimumBid now := by
  rw [bidSubmit_eq_none_iff]
  unfold BadPress
  by_cases hown : item.openedBy = userName
  · simp [unwraps, hown]
  by_cases htext : text = ""
  · simp [unwraps, hown, htext]
  cases hopen : Date.isBetween now item.openDate item.closeDate with
  | false => simp [unwraps, hown, htext, hopen]
  | true =>
      cases hamount : Double.ofText text with
      | none => simp [unwraps, hown, htext, hopen, hamount]
      | some amount =>
          by_cases htest : passesPriceTest item amount = true <;>
            simp [unwraps, hown, htext, hopen, hamount, htest, place_eq_none_iff]

/-- The item and the user of a press. -/
theorem Sound.bidder (h : client.Sound) {bar : TabBar} (hbar : client.tabBar = some bar)
    {screen : Nat} (hscreen : bar.homeFeedDetails = some screen) :
    ∃ item, client.selectedItem = some item ∧
      ∃ userName, client.signedInUserName = some userName := by
  obtain ⟨ref, href⟩ := Option.isSome_iff_exists.mp (h.chosen bar hbar (by simp [hscreen]))
  obtain ⟨item, hitem⟩ := h.selected ref href
  exact ⟨item, by simp [selectedItem, href, hitem],
    Option.isSome_iff_exists.mp (h.session bar hbar)⟩

theorem bidSubmit_crash (hsound : client.Sound) {text : String} :
    client.bidSubmit env text = some .crash ↔ client.Traps env (.bidSubmit text) := by
  constructor
  · intro hcrash
    simp only [bidSubmit, bidOutcome, Option.bind_eq_bind, Option.bind_eq_some_iff,
      Option.ite_none_right_eq_some, Option.some.injEq] at hcrash
    obtain ⟨_, ⟨bar, hbar, screen, hscreen, shown, hshown, htab, rfl⟩, hcrash⟩ := hcrash
    obtain ⟨item, hitem, userName, huser⟩ := hsound.bidder hbar hscreen
    rw [hitem, huser] at hcrash
    refine .press text bar screen shown item userName hbar htab hscreen hshown hitem huser ?_
    rw [← bidSubmit_eq_none]
    cases houtcome : HomeFeedDetailsViewController.bidSubmit (some item) (some userName)
      shown.minimumBid text env.now with
    | none => rfl
    | some outcome =>
        rw [houtcome] at hcrash
        cases outcome <;> simp [Reaction.orCrash, bidTarget, hitem, huser] at hcrash
  · intro htraps
    cases htraps with
    | press _ bar screen shown item userName hbar htab hscreen hshown hitem huser hbad =>
        simp [bidSubmit, bidOutcome, hbar, htab, hscreen, hshown, hitem, huser,
          bidSubmit_eq_none.mpr hbad, Reaction.orCrash]

theorem submitAuction_eq_none {zone : TimeZone} {form : OpenNewAuctionViewController.Form}
    {userName : String} {now later : Date} :
    OpenNewAuctionViewController.submitAuction zone form (some userName) now later = none ↔
      BadForm form now := by
  unfold BadForm OpenNewAuctionViewController.submitAuction
  by_cases himage : form.didUploadImage = false
  · simp [himage]
  by_cases hname : form.itemName = ""
  · simp [himage, hname]
  by_cases hstarting : form.startingPrice = ""
  · simp [himage, hname, hstarting]
  by_cases hclosing : form.closingDate < now
  · simp [himage, hname, hstarting, hclosing]
  rcases Double.ofText form.startingPrice with _ | _ | _ | _ <;>
    simp [himage, hname, hstarting, hclosing, not_lt.mp hclosing]

theorem submitAuction_crash (hsound : client.Sound) {later : Date} :
    client.submitAuction env = some .crash ↔ client.Traps env (.submitAuction later) := by
  constructor
  · intro hcrash
    simp only [submitAuction, Option.bind_eq_bind, Option.bind_eq_some_iff,
      Option.ite_none_right_eq_some, Option.some.injEq] at hcrash
    obtain ⟨bar, hbar, htab, hcrash⟩ := hcrash
    obtain ⟨userName, huser⟩ := Option.isSome_iff_exists.mp (hsound.session bar hbar)
    cases houtcome : OpenNewAuctionViewController.submitAuction env.zone bar.form
      client.signedInUserName env.now env.later with
    | none =>
        rw [huser] at houtcome
        exact .form later bar hbar htab (submitAuction_eq_none.mp houtcome)
    | some outcome =>
        rw [houtcome] at hcrash
        cases outcome <;> simp [Reaction.orCrash] at hcrash
  · intro htraps
    cases htraps with
    | form _ bar hbar htab hbad =>
        obtain ⟨userName, huser⟩ := Option.isSome_iff_exists.mp (hsound.session bar hbar)
        simp [submitAuction, hbar, htab, huser, submitAuction_eq_none.mpr hbad, Reaction.orCrash]

/-- A Users callback does not trap: every record can be read. -/
theorem taskWrites_ne_none {db : Database} (h : db.UsersRead) {kind : TaskKind}
    {writes : Option (List Write)} (hwrites : client.taskWrites kind db = some writes) :
    writes ≠ none := by
  have hsome : writes.isSome := by
    cases kind with
    | uploadProfileImage => cases hwrites
    | countAuction =>
        obtain rfl := Option.some.inj hwrites
        exact h.openNewAuction _
    | countWon =>
        obtain rfl := Option.some.inj hwrites
        exact h.auctionWon _ _
    | setProfileImage url =>
        obtain rfl := Option.some.inj hwrites
        exact h.profileImage _ url
  exact Option.isSome_iff_ne_none.mp hsome

theorem signUp_ne_crash (hregular : ∀ db ∈ env.snapshots, db.Regular) (snapshot : Nat)
    (username password : String) :
    client.signUp env snapshot username password ≠ some .crash := by
  intro hcrash
  simp only [signUp, Option.bind_eq_bind, Option.bind_eq_some_iff, Option.some.injEq] at hcrash
  obtain ⟨users, husers, hcrash⟩ := hcrash
  have hread := (hregular users (List.mem_of_getElem? husers)).users.usersRead
  obtain ⟨outcome, houtcome⟩ := Option.isSome_iff_exists.mp (hread.signUp username password)
  simp [houtcome, Reaction.orCrash] at hcrash

theorem login_ne_crash (hregular : ∀ db ∈ env.snapshots, db.Regular) (snapshot : Nat)
    (username password : String) :
    client.login env snapshot username password ≠ some .crash := by
  intro hcrash
  simp only [login, Option.bind_eq_bind, Option.bind_eq_some_iff, Option.ite_none_left_eq_some,
    Option.some.injEq] at hcrash
  obtain ⟨users, husers, _, hcrash⟩ := hcrash
  have hread := (hregular users (List.mem_of_getElem? husers)).users.usersRead
  obtain ⟨outcome, houtcome⟩ := Option.isSome_iff_exists.mp (hread.login username password)
  rw [houtcome] at hcrash
  cases hsession : outcome.session <;> simp [Reaction.orCrash, hsession] at hcrash

theorem usersEvent_ne_crash (hregular : ∀ db ∈ env.snapshots, db.Regular)
    (task snapshot : Nat) : client.usersEvent env task snapshot ≠ some .crash := by
  intro hcrash
  simp only [usersEvent, Option.bind_eq_bind, Option.bind_eq_some_iff, Option.some.injEq] at hcrash
  obtain ⟨pending, _, users, husers, writes, hwrites, hcrash⟩ := hcrash
  have hread := (hregular users (List.mem_of_getElem? husers)).users.usersRead
  obtain ⟨written, rfl⟩ := Option.ne_none_iff_exists'.mp (taskWrites_ne_none hread hwrites)
  simp [Reaction.orCrash] at hcrash

/-- The observer of Users on the profile does not trap either. -/
theorem profileUsersEvent_ne_crash (hopened : client.Opened)
    (hregular : ∀ db ∈ env.snapshots, db.Regular) (screen snapshot : Nat)
    (isURL : String → Bool) :
    client.profileUsersEvent env screen snapshot isURL ≠ some .crash := by
  intro hcrash
  simp only [profileUsersEvent, Option.bind_eq_bind, Option.bind_eq_some_iff,
    Option.some.injEq] at hcrash
  obtain ⟨shown, hshown, users, husers, hcrash⟩ := hcrash
  obtain ⟨userName, huser⟩ := Option.isSome_iff_exists.mp
    (hopened.profiles (by rintro hempty; simp [hempty] at hshown))
  have hread := (hregular users (List.mem_of_getElem? husers)).users.usersRead
  obtain ⟨labels, hlabels⟩ :=
    Option.isSome_iff_exists.mp (hread.profile isURL userName shown.labels)
  rw [huser, hlabels] at hcrash
  cases hcrash

/-- The first visit to the profile unwraps the name of who is signed in. -/
theorem selectTab_ne_crash (hsound : client.Sound) (tab : Tab) :
    client.selectTab env tab ≠ some .crash := by
  intro hcrash
  simp only [selectTab, Option.bind_eq_bind, Option.bind_eq_some_iff,
    Option.some.injEq] at hcrash
  obtain ⟨bar, hbar, hcrash⟩ := hcrash
  obtain ⟨userName, huser⟩ := Option.isSome_iff_exists.mp (hsound.session bar hbar)
  cases tab with
  | profile =>
      cases hloaded : bar.profile <;>
        simp [loadProfile, hloaded, huser, ProfileViewController.viewDidLoad,
          Reaction.orCrash] at hcrash
  | _ => simp [Reaction.orCrash] at hcrash

/-- The listing of a details screen is unwrapped after it has been selected. -/
theorem deleteListing_ne_crash (hsound : client.Sound) (hopened : client.Opened) :
    client.deleteListing ≠ some .crash := by
  intro hcrash
  simp only [deleteListing, Option.bind_eq_bind, Option.bind_eq_some_iff,
    Option.ite_none_right_eq_some, Option.some.injEq] at hcrash
  obtain ⟨bar, hbar, shown, hshown, _, hcrash⟩ := hcrash
  obtain ⟨ref, href⟩ := Option.isSome_iff_exists.mp (hopened.listing bar hbar (by simp [hshown]))
  obtain ⟨item, hitem⟩ := hsound.selected ref href
  simp [selectedItem, href, hitem, YourListingsDetailsViewController.deleteListing,
    Reaction.orCrash] at hcrash

theorem act_crash_iff (hrunning : client.crashed = false) (hsound : client.Sound)
    (hopened : client.Opened) (hregular : ∀ db ∈ env.snapshots, db.Regular) {action : Action} :
    client.act env action = some .crash ↔ client.Traps env action := by
  simp only [act, hrunning, Bool.false_eq_true, if_false]
  cases action with
  | productsEvent => exact productsEvent_crash hopened hregular
  | profileProductsEvent => exact profileProductsEvent_crash hopened hregular
  | detailsEvent => exact detailsEvent_crash hsound hregular
  | priceRead => exact priceRead_crash hregular
  | bidSubmit => exact bidSubmit_crash hsound
  | submitAuction => exact submitAuction_crash hsound
  | signUp => exact iff_of_false (signUp_ne_crash hregular _ _ _) fun h => by cases h
  | login => exact iff_of_false (login_ne_crash hregular _ _ _) fun h => by cases h
  | usersEvent => exact iff_of_false (usersEvent_ne_crash hregular _ _) fun h => by cases h
  | deleteListing => exact iff_of_false (deleteListing_ne_crash hsound hopened) fun h => by cases h
  | profileUsersEvent =>
      exact iff_of_false (profileUsersEvent_ne_crash hopened hregular _ _ _) fun h => by cases h
  | selectTab => exact iff_of_false (selectTab_ne_crash hsound _) fun h => by cases h
  | _ =>
      refine iff_of_false ?_ fun h => by cases h
      simp [signOut, selectRow, popDetails, pullDownRefresh, onForm,
        profileImagePicked, profileUploadEnded, Option.bind_eq_some_iff]

end Client

namespace System

variable {world : World} {now : Date} {s : System}

theorem regular (h : Reachable world now s) : ∀ db ∈ s.states, db.Regular := by
  have hproducts : ∀ db ∈ s.states, ∀ key record,
      db.products.lookup key = some record → record.Complete ∨ db.Gone key := by
    refine db_invariant (fun db => ∀ key record, db.products.lookup key = some record →
      record.Complete ∨ db.Gone key) (fun _ _ hlookup => by cases hlookup) ?_ h
    intro s sender issue hprior _ _ hwire hinv
    have hbacked := issue_backed hprior issue ((honest hprior).mem_issued hwire)
    exact Database.complete_or_gone_apply hbacked (hinv _ (Outbox.Net.db_mem_states _))
  intro db hdb
  refine ⟨(users_readable h).1 db hdb, hproducts db hdb, ?_, ?_⟩
  · intro key value hvalue
    obtain ⟨price, hprice, _⟩ := price_origin h hdb hvalue
    exact ⟨price, hprice⟩
  · intro key value hvalue
    obtain ⟨bidder, hbidder, _⟩ := bidder_origin h hdb hvalue
    exact ⟨bidder, hbidder⟩

end System

end Auctioneer
