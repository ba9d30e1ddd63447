import Auctioneer.Proof.Items
import Auctioneer.Proof.Rules

/-!
Where the data of a client comes from: its session from a registered user, its
items from records that their products have had, and so the writes it issues.
-/

namespace Auctioneer

/-- Some state of the database has had a user of this name. -/
def Registered (dbs : List Database) (name : String) : Prop :=
  ∃ db ∈ dbs, ∃ key, db.username key = some name

theorem Registered.mono {dbs dbs' : List Database} {name : String} (hsub : dbs ⊆ dbs')
    (h : Registered dbs name) : Registered dbs' name := by
  obtain ⟨db, hdb, hkey⟩ := h
  exact ⟨db, hsub hdb, hkey⟩

/-- The item shows a record that its product has had, read in `zone`. -/
def AuctionItem.Sourced (zone : TimeZone) (dbs : List Database) (item : AuctionItem) : Prop :=
  ∃ db ∈ dbs, ∃ record, db.products.lookup item.uniqueKey = some record ∧
    item.Describes zone record

theorem AuctionItem.Sourced.mono {zone : TimeZone} {dbs dbs' : List Database}
    {item : AuctionItem} (hsub : dbs ⊆ dbs') (h : item.Sourced zone dbs) :
    item.Sourced zone dbs' := by
  obtain ⟨db, hdb, hrecord⟩ := h
  exact ⟨db, hsub hdb, hrecord⟩

/-- A price event replaces one item by the same item at another price. -/
theorem Heap.mem_setPrice {heap : Heap} {selected : Option Ref} {price : Price}
    {item : AuctionItem} (h : item ∈ heap.setPrice selected price) :
    item ∈ heap ∨ ∃ ref old, selected = some ref ∧ heap[ref]? = some old ∧
      item = { old with highestBidPrice := price } := by
  cases selected with
  | none => exact .inl h
  | some ref =>
      obtain ⟨index, hindex⟩ := List.mem_iff_getElem?.mp h
      simp only [Heap.setPrice, List.getElem?_modify, Option.map_eq_map,
        Option.map_eq_some_iff] at hindex
      obtain ⟨old, hold, hitem⟩ := hindex
      by_cases heq : ref = index
      · subst heq
        exact .inr ⟨ref, old, rfl, hold, by simpa using hitem.symm⟩
      · obtain rfl : old = item := by simpa [heq] using hitem
        exact .inl (List.mem_of_getElem? hold)

namespace Client

variable {env : Env} {client : Client}

theorem selectedItem_mem {item : AuctionItem} (h : client.selectedItem = some item) :
    item ∈ client.heap := by
  simp only [selectedItem, Option.bind_eq_some_iff] at h
  obtain ⟨_, _, hitem⟩ := h
  exact List.mem_of_getElem? hitem

/-- Every list callback decodes the whole snapshot. -/
theorem retrieveData_decodes {kind : ListKind} {db : Database} {items : List AuctionItem}
    (h : client.retrieveData env kind db = some items) {item : AuctionItem}
    (hitem : item ∈ items) :
    ∃ dictionary, decodeProducts env.zone env.now db = some dictionary ∧
      item ∈ dictionary := by
  cases kind with
  | homeFeed => exact HomeFeedViewController.mem_of_retrieveData h hitem
  | yourListing => exact (YourListingViewController.mem_of_retrieveData h hitem).1
  | auctionWon => exact (AuctionWonViewController.mem_of_retrieveData h hitem).1

/-- What an event does to the items of a client: a list callback adds items that
it decodes, and a price event changes the price of the selected item. -/
theorem act_items {client' : Client} {action : Action} {issues : List Issue}
    (inv : AuctionItem → Prop) (h : client.act env action = some (.done client' issues))
    (hold : ∀ item ∈ client.heap, inv item)
    (hread : ∀ db ∈ env.snapshots, ∀ item record,
      db.products.lookup item.uniqueKey = some record →
      item.ReadFrom env.zone env.now item.uniqueKey record → inv item)
    (hpriced : ∀ db ∈ env.snapshots, ∀ product price item, client.PriceEvent action product →
      db.highestbidprice product = some price → client.selectedItem = some item → inv item →
      inv { item with highestBidPrice := price }) :
    ∀ item ∈ client'.heap, inv item := by
  intro item hitem
  generalize hheap : client'.heap = heap at hitem
  have hchange := act_heap h
  rw [hheap] at hchange
  cases hchange with
  | same => exact hold item hitem
  | list screen snapshot shown db items _ hdb hitems =>
      rcases List.mem_append.mp hitem with hearlier | hadded
      · exact hold item hearlier
      · obtain ⟨dictionary, hdictionary, hmem⟩ := retrieveData_decodes hitems hadded
        obtain ⟨record, hrecord, hdecoded⟩ := exists_of_mem_decodeProducts hdictionary hmem
        exact hread db hdb item record hrecord hdecoded
  | price _ product db price hevent hdb hprice =>
      rcases Heap.mem_setPrice hitem with hearlier | ⟨ref, old, href, hget, rfl⟩
      · exact hold item hearlier
      · have hselected : client.selectedItem = some old := by
          simp [selectedItem, href, hget]
        exact hpriced db hdb product price old hevent hprice hselected
          (hold old (List.mem_of_getElem? hget))

/-- What a bid went through, about the item selected and the user signed in. -/
theorem bidOutcome_bid {item : AuctionItem} {userName text : String} {amount : Price}
    (hitem : client.selectedItem = some item) (huser : client.signedInUserName = some userName)
    (h : client.bidOutcome env text = some (some (.bid amount))) :
    item.openedBy ≠ userName ∧ Date.isBetween env.now item.openDate item.closeDate = true ∧
      HomeFeedDetailsViewController.passesPriceTest item (.finite amount) = true := by
  simp only [bidOutcome, Option.bind_eq_bind, Option.bind_eq_some_iff,
    Option.ite_none_right_eq_some, Option.some.injEq] at h
  obtain ⟨_, _, _, _, _, _, _, hbid⟩ := h
  obtain ⟨_, _, hitem', huser', hother, hopen, _, htest⟩ :=
    HomeFeedDetailsViewController.bidSubmit_bid hbid
  obtain rfl := Option.some.inj (hitem.symm.trans hitem')
  obtain rfl := Option.some.inj (huser.symm.trans huser')
  exact ⟨hother, hopen, htest⟩

end Client

/-- What backs a write that a client has issued. -/
inductive Issue.Backed (world : World) (dbs : List Database) : Issue → Prop where
  | auction (c : ClientId) (key : Key) (form : OpenNewAuctionViewController.Form)
      (later : Date) (opener : String) (price : Price) :
      Registered dbs opener →
      Backed world dbs ⟨.setProduct key (OpenNewAuctionViewController.productRecord
          form.itemName form.returnedImageUrl opener
          (DateFormatter.string (world c).zone later)
          (DateFormatter.string (world c).zone form.closingDate) price),
        .submitAuction (some opener)⟩
  | bid (c : ClientId) (item : AuctionItem) (amount : Price) (bidder : String)
      (issue : Issue) :
      item.Sourced (world c).zone dbs →
      HomeFeedDetailsViewController.passesPriceTest item (.finite amount) = true →
      Registered dbs bidder →
      issue ∈ HomeFeedDetailsViewController.bidIssues item.uniqueKey amount bidder →
      Backed world dbs issue
  | delete (c : ClientId) (item : AuctionItem) (shown : Key) (author : Option String) :
      item.Sourced (world c).zone dbs →
      Backed world dbs ⟨.removeProduct item.uniqueKey, .deleteListing shown author⟩
  | signUp (key : Key) (username password : String) :
      Backed world dbs ⟨.setUser key (SignUpViewController.userRecord username password),
        .signUp username⟩
  | task (key : Key) (field : UserField) (value : Value) (author : Option String)
      (name : String) (db : Database) :
      db ∈ dbs → db.username key = some name → field ≠ .Username → field ≠ .Password →
      Backed world dbs ⟨.updateUser key field value, .userTask author⟩

theorem Issue.Backed.mono {world : World} {dbs dbs' : List Database} {issue : Issue}
    (hsub : dbs ⊆ dbs') (h : issue.Backed world dbs) : issue.Backed world dbs' := by
  cases h with
  | auction c key form later opener price hopener =>
      exact .auction c key form later opener price (hopener.mono hsub)
  | bid c item amount bidder _ hitem htest hbidder hissue =>
      exact .bid c item amount bidder _ (hitem.mono hsub) htest (hbidder.mono hsub) hissue
  | delete c item shown author hitem => exact .delete c item shown author (hitem.mono hsub)
  | signUp key username password => exact .signUp key username password
  | task key field value author name db hdb hname hfield hpassword =>
      exact .task key field value author name db (hsub hdb) hname hfield hpassword

/-- The records that a Users callback writes to are those of the name that is
signed in when it runs. -/
theorem mem_ownUpdates {snapshot : Database} {signedIn : Option String} {field : UserField}
    {value : UserRecord → Option Value} {writes : List Write} {write : Write}
    (h : ownUpdates snapshot signedIn field value = some writes) (hwrite : write ∈ writes) :
    ∃ key new name record, write = .updateUser key field new ∧ signedIn = some name ∧
      snapshot.users.lookup key = some record ∧ record .Username = some (.string name) ∧
      value record = some new := by
  simp only [ownUpdates, Option.map_eq_some_iff] at h
  obtain ⟨lists, hlists, rfl⟩ := h
  obtain ⟨list, hlist, hmem⟩ := List.mem_flatten.mp hwrite
  obtain ⟨⟨key, record⟩, hentry, hupdate⟩ := Traverse.exists_of_mem hlists hlist
  simp only [Option.bind_eq_bind, Option.bind_eq_some_iff, castString_eq_some] at hupdate
  obtain ⟨name, hname, hupdate⟩ := hupdate
  split at hupdate
  · next hsigned =>
    obtain ⟨new, hnew, hlist⟩ := Option.bind_eq_some_iff.mp hupdate
    obtain rfl := Option.some.inj hlist
    obtain rfl := List.mem_singleton.mp hmem
    exact ⟨key, new, name, record, rfl, hsigned.symm, mem_entries_iff.mp hentry, hname, hnew⟩
  · obtain rfl := Option.some.inj hupdate
    cases hmem

/-- Every record of the signed-in user is updated. -/
theorem exists_ownUpdate {snapshot : Database} {name : String} {field : UserField}
    {value : UserRecord → Option Value} {writes : List Write}
    (h : ownUpdates snapshot (some name) field value = some writes) {key : Key}
    (hname : snapshot.username key = some name) :
    ∃ new, .updateUser key field new ∈ writes := by
  simp only [ownUpdates, Option.map_eq_some_iff] at h
  obtain ⟨lists, hlists, rfl⟩ := h
  simp only [Database.username, Database.userField, castString_eq_some,
    Option.bind_eq_some_iff] at hname
  obtain ⟨record, hrecord, hname⟩ := hname
  obtain ⟨list, hlist, hupdate⟩ := Traverse.mem_of_mem hlists (mem_entries_iff.mpr hrecord)
  simp only [castString_eq_some.mpr hname, Option.bind_eq_bind, Option.bind_some,
    if_true, Option.bind_eq_some_iff] at hupdate
  obtain ⟨new, _, hnew⟩ := hupdate
  obtain rfl := Option.some.inj hnew
  exact ⟨new, List.mem_flatten.mpr ⟨_, hlist, List.mem_singleton_self _⟩⟩

/-- The field that a task updates in a record it has read, and the value. -/
inductive TaskKind.Assigns (record : UserRecord) : TaskKind → UserField → Value → Prop where
  | countAuction (count : ℤ) : castInt (record .ItemsAuctioned) = some count →
      Assigns record .countAuction .ItemsAuctioned (.number (count + 1))
  | countWon (screen listed : Nat) :
      Assigns record (.countWon screen) .AuctionsWon (.number listed)
  | setProfileImage (url : String) :
      Assigns record (.setProfileImage url) .ProfileImage (.string url)

theorem TaskKind.Assigns.field_ne {record : UserRecord} {kind : TaskKind} {field : UserField}
    {value : Value} (h : kind.Assigns record field value) :
    field ≠ .Username ∧ field ≠ .Password := by
  cases h <;> simp

/-- The writes of a task: each updates a record of the signed-in user as the
task read it. -/
theorem Client.taskWrites_assigns {client : Client} {kind : TaskKind} {snapshot : Database}
    {writes : List Write} {write : Write}
    (h : client.taskWrites kind snapshot = some (some writes)) (hwrite : write ∈ writes) :
    ∃ key field value name record, write = .updateUser key field value ∧
      client.signedInUserName = some name ∧ snapshot.users.lookup key = some record ∧
      record .Username = some (.string name) ∧ kind.Assigns record field value := by
  cases kind with
  | uploadProfileImage => cases h
  | countAuction =>
      obtain ⟨key, new, name, record, rfl, hsigned, hlookup, hname, hvalue⟩ :=
        mem_ownUpdates (Option.some.inj h) hwrite
      obtain ⟨count, hcount, hnew⟩ := Option.bind_eq_some_iff.mp hvalue
      obtain rfl := Option.some.inj hnew
      exact ⟨key, _, _, name, record, rfl, hsigned, hlookup, hname, .countAuction count hcount⟩
  | countWon screen =>
      obtain ⟨key, new, name, record, rfl, hsigned, hlookup, hname, hnew⟩ :=
        mem_ownUpdates (Option.some.inj h) hwrite
      obtain rfl := Option.some.inj hnew
      exact ⟨key, _, _, name, record, rfl, hsigned, hlookup, hname, .countWon screen _⟩
  | setProfileImage url =>
      obtain ⟨key, new, name, record, rfl, hsigned, hlookup, hname, hnew⟩ :=
        mem_ownUpdates (Option.some.inj h) hwrite
      obtain rfl := Option.some.inj hnew
      exact ⟨key, _, _, name, record, rfl, hsigned, hlookup, hname, .setProfileImage url⟩

theorem Client.mem_taskWrites {client : Client} {kind : TaskKind} {snapshot : Database}
    {writes : List Write} {write : Write}
    (h : client.taskWrites kind snapshot = some (some writes)) (hwrite : write ∈ writes) :
    ∃ key field new name, write = .updateUser key field new ∧ field ≠ .Username ∧
      field ≠ .Password ∧ client.signedInUserName = some name ∧
      snapshot.username key = some name := by
  obtain ⟨key, field, value, name, record, rfl, hsigned, hlookup, hname, hassigns⟩ :=
    taskWrites_assigns h hwrite
  obtain ⟨hfield, hpassword⟩ := hassigns.field_ne
  exact ⟨key, field, value, name, rfl, hfield, hpassword, hsigned,
    by simp [Database.username, Database.userField, hlookup, hname]⟩

namespace Client

/-- One write that an event issues. -/
inductive Issued (env : Env) (client : Client) : Action → Issue → Prop where
  | signUp (snapshot : Nat) (username password : String) :
      Issued env client (.signUp snapshot username password)
        ⟨.setUser env.freshKey (SignUpViewController.userRecord username password),
          .signUp username⟩
  | bid (text : String) (item : AuctionItem) (userName : String) (amount : Price)
      (issue : Issue) :
      client.selectedItem = some item → client.signedInUserName = some userName →
      HomeFeedDetailsViewController.passesPriceTest item (.finite amount) = true →
      issue ∈ HomeFeedDetailsViewController.bidIssues item.uniqueKey amount userName →
      Issued env client (.bidSubmit text) issue
  | delete (bar : TabBar) (shown : Key) (item : AuctionItem) :
      client.tabBar = some bar → bar.yourListingsDetails = some shown →
      client.selectedItem = some item →
      Issued env client .deleteListing
        ⟨.removeProduct item.uniqueKey, .deleteListing shown client.signedInUserName⟩
  | auction (later : Date) (bar : TabBar) (record : ProductRecord) :
      client.tabBar = some bar →
      OpenNewAuctionViewController.submitAuction env.zone bar.form client.signedInUserName
        env.now env.later = some (.create record) →
      Issued env client (.submitAuction later)
        ⟨.setProduct env.freshKey record, .submitAuction client.signedInUserName⟩
  | task (task snapshot : Nat) (pending : UserTask) (users : Database) (key : Key)
      (field : UserField) (value : Value) (name : String) :
      client.tasks[task]? = some pending → users ∈ env.snapshots →
      field ≠ .Username → field ≠ .Password → client.signedInUserName = some name →
      users.username key = some name →
      Issued env client (.usersEvent task snapshot)
        ⟨.updateUser key field value, .userTask pending.author⟩

theorem act_issued {env : Env} {client client' : Client} {action : Action}
    {issues : List Issue} (h : client.act env action = some (.done client' issues)) :
    ∀ issue ∈ issues, Issued env client action issue := by
  intro issue hissue
  cases act_issues h with
  | silent => cases hissue
  | signUp =>
      obtain rfl := List.mem_singleton.mp hissue
      exact .signUp _ _ _
  | bid text item userName amount hitem huser hopened =>
      have htest := (bidOutcome_bid hitem huser hopened).2.2
      exact .bid text item userName amount issue hitem huser htest hissue
  | delete bar shown item hbar _ hshown hitem =>
      obtain rfl := List.mem_singleton.mp hissue
      exact .delete bar shown item hbar hshown hitem
  | auction later bar record hbar hcreate =>
      obtain rfl := List.mem_singleton.mp hissue
      exact .auction later bar record hbar hcreate
  | task task snapshot pending users writes hpending husers hwrites =>
      obtain ⟨write, hwrite, rfl⟩ := List.mem_map.mp hissue
      obtain ⟨key, field, value, name, rfl, hfield, hpassword, hsigned, hname⟩ :=
        mem_taskWrites hwrites hwrite
      exact .task task snapshot pending users key field value name hpending husers hfield
        hpassword hsigned hname

/-- A bidder is only written by a press that is taken as a bid: on the product of
the selected item, for the user signed in. -/
theorem act_bidder {env : Env} {client client' : Client} {action : Action}
    {issues : List Issue} (h : client.act env action = some (.done client' issues))
    {issue : Issue} (hissue : issue ∈ issues) {key : Key} {value : Value}
    (hwrite : issue.write = .setProductField key .highestbidder value) :
    ∃ item userName amount, client.selectedItem = some item ∧
      client.signedInUserName = some userName ∧
      item.openedBy ≠ userName ∧ Date.isBetween env.now item.openDate item.closeDate = true ∧
      issue = HomeFeedDetailsViewController.bidderIssue item.uniqueKey amount userName := by
  cases act_issues h with
  | silent => cases hissue
  | bid text item userName amount hitem huser hopened =>
      obtain ⟨hother, hopen, _⟩ := bidOutcome_bid hitem huser hopened
      rcases HomeFeedDetailsViewController.mem_bidIssues.mp hissue with rfl | rfl
      · cases hwrite
      · exact ⟨item, userName, amount, hitem, huser, hother, hopen, rfl⟩
  | task _ _ pending users writes _ _ hwrites =>
      obtain ⟨write, hmem, rfl⟩ := List.mem_map.mp hissue
      obtain ⟨_, _, _, _, rfl, _⟩ := mem_taskWrites hwrites hmem
      cases hwrite
  | _ =>
      obtain rfl := List.mem_singleton.mp hissue
      cases hwrite

end Client

namespace System

variable {world : World} {ok : System → Label → Prop} {now : Date} {s : System}

/-- Whoever is signed in has been a registered user. -/
theorem session_registered (h : ReachesUnder world ok now s) (c : ClientId) :
    ∀ name, (s.client c).signedInUserName = some name → Registered s.states name := by
  refine client_invariant
    (fun dbs _ client => ∀ name, client.signedInUserName = some name → Registered dbs name)
    ?_ ?_ ?_ ?_ h c
  · intro _ _ name hname
    cases hname
  · intro _ _ _ _ hsub hinv name hname
    exact (hinv name hname).mono hsub
  · intro _ _ _ hinv
    exact hinv
  · intro s c action client issues _ _ hinv hact name hname
    rcases Client.act_session hact with hsame | ⟨_, username, _, key, db, _, hdb, hstored, rfl⟩
    · exact hinv name (hsame ▸ hname)
    · obtain rfl : username = name := Option.some.inj hname
      exact ⟨db, hdb, key, hstored⟩

/-- Every item a client holds shows a record that its product has had. -/
theorem item_sourced (h : ReachesUnder world ok now s) (c : ClientId) :
    ∀ item ∈ (s.client c).heap, item.Sourced (world c).zone s.states := by
  refine client_invariant
    (fun dbs c client => ∀ item ∈ client.heap, item.Sourced (world c).zone dbs)
    ?_ ?_ ?_ ?_ h c
  · intro _ _ item hitem
    cases hitem
  · intro _ _ _ _ hsub hinv item hitem
    exact (hinv item hitem).mono hsub
  · intro _ _ _ hinv
    exact hinv
  · intro s c action client issues _ _ hinv hact
    refine Client.act_items (fun item => item.Sourced (world c).zone s.states) hact hinv ?_ ?_
    · intro db hdb item record hrecord hread
      exact ⟨db, hdb, record, hrecord, hread.toDescribes⟩
    · rintro db hdb product price item _ _ _ ⟨source, hsource, record, hrecord, hdescribes⟩
      exact ⟨source, hsource, record, hrecord, hdescribes.openby, hdescribes.opendate,
        hdescribes.closedate, hdescribes.startingprice⟩

/-- Every issued write is one that the code makes, for a registered user and on
a product that has been there. -/
theorem issue_backed (h : ReachesUnder world ok now s) :
    ∀ issue ∈ s.net.issued, issue.Backed world s.states := by
  refine issue_invariant (fun dbs issue => issue.Backed world dbs) ?_ ?_ h
  · intro _ _ _ hsub hinv
    exact hinv.mono hsub
  · intro s c action client issues hreaches _ hact issue hissue
    cases Client.act_issued hact issue hissue with
    | signUp _ username password => exact .signUp _ _ _
    | bid text item userName amount _ hitem huser htest hbid =>
        have hsourced := item_sourced hreaches c item (Client.selectedItem_mem hitem)
        have hregistered := session_registered hreaches c userName huser
        exact .bid c item amount userName issue hsourced htest hregistered hbid
    | delete bar shown item _ _ hitem =>
        have hsourced := item_sourced hreaches c item (Client.selectedItem_mem hitem)
        exact .delete c item _ _ hsourced
    | auction later bar record _ hcreate =>
        obtain ⟨userName, price, huser, _, rfl⟩ :=
          OpenNewAuctionViewController.submitAuction_create hcreate
        have hregistered := session_registered hreaches c userName huser
        rw [huser]
        exact .auction c _ bar.form _ userName price hregistered
    | task task snapshot pending users key field value name _ husers hfield hpassword _ hname =>
        exact .task key field value _ name users husers hname hfield hpassword

end System

end Auctioneer
