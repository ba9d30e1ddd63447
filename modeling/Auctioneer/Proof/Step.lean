import Auctioneer.Model.System

/-!
What one step can do. Each lemma covers every event of a client, so that an
invariant needs only the cases that touch it.
-/

namespace Auctioneer

namespace System

variable {world : World} {s s' : System} {l : Label}

/-- Every kind of step of the system. -/
theorem step_cases (h : s.step world l = some s') :
    (∃ now, l = .tick now ∧ s.now ≤ now ∧ s' = { s with now }) ∨
    (∃ sender net, l = .deliver sender ∧ s.net.deliver sender Issue.apply = some net ∧
      s' = { s with net }) ∨
    (∃ c action, l = .act c action ∧ s.now ≤ action.ends s.now ∧
      (s.client c).act (s.env world c (action.ends s.now)) action = some .crash ∧
      s' = s.react c (action.ends s.now) .crash) ∨
    (∃ c action client issues, l = .act c action ∧ s.now ≤ action.ends s.now ∧
      (s.client c).act (s.env world c (action.ends s.now)) action =
        some (.done client issues) ∧
      s' = s.react c (action.ends s.now) (.done client issues)) := by
  cases l with
  | tick now =>
      simp only [step, Option.ite_none_right_eq_some, Option.some.injEq] at h
      exact .inl ⟨now, rfl, h.1, h.2.symm⟩
  | deliver sender =>
      simp only [step, Option.map_eq_some_iff] at h
      obtain ⟨net, hnet, rfl⟩ := h
      exact .inr (.inl ⟨sender, net, rfl, hnet, rfl⟩)
  | act c action =>
      simp only [step, Option.ite_none_right_eq_some, Option.map_eq_some_iff] at h
      obtain ⟨hends, reaction, hact, rfl⟩ := h
      cases reaction with
      | crash => exact .inr (.inr (.inl ⟨c, action, rfl, hends, hact, rfl⟩))
      | done client issues =>
          exact .inr (.inr (.inr ⟨c, action, client, issues, rfl, hends, hact, rfl⟩))

theorem step_deliver {sender : ClientId} (h : s.step world (.deliver sender) = some s') :
    s.net.deliver sender Issue.apply = some s'.net := by
  simp only [step, Option.map_eq_some_iff] at h
  obtain ⟨net, hnet, rfl⟩ := h
  exact hnet

@[simp] theorem react_crash_net (c : ClientId) (ends : Date) :
    (s.react c ends .crash).net = s.net := rfl

@[simp] theorem react_done_net (c : ClientId) (ends : Date) (client : Client)
    (issues : List Issue) :
    (s.react c ends (.done client issues)).net = s.net.issue c issues := rfl

@[simp] theorem react_nextKey (c : ClientId) (ends : Date) (reaction : Reaction) :
    (s.react c ends reaction).nextKey = s.nextKey + 1 := by
  cases reaction <;> rfl

@[simp] theorem react_crash_client (c : ClientId) (ends : Date) :
    (s.react c ends .crash).client c = { s.client c with crashed := true } := by
  simp [react]

@[simp] theorem react_done_client (c : ClientId) (ends : Date) (client : Client)
    (issues : List Issue) : (s.react c ends (.done client issues)).client c = client := by
  simp [react]

theorem react_client_ne {c other : ClientId} (hne : other ≠ c) (ends : Date)
    (reaction : Reaction) : (s.react c ends reaction).client other = s.client other := by
  cases reaction <;> simp [react, Function.update_of_ne hne]

/-- What a step does to the database and the wire. -/
theorem step_net (h : s.step world l = some s') :
    (s'.net = s.net ∧ s.nextKey ≤ s'.nextKey) ∨
    (∃ sender, l = .deliver sender ∧ s.net.deliver sender Issue.apply = some s'.net ∧
      s'.nextKey = s.nextKey) ∨
    (∃ c action client issues, l = .act c action ∧
      (s.client c).act (s.env world c (action.ends s.now)) action =
        some (.done client issues) ∧
      s'.net = s.net.issue c issues ∧ s'.nextKey = s.nextKey + 1) := by
  rcases step_cases h with ⟨_, _, _, rfl⟩ | ⟨sender, net, hl, hnet, rfl⟩ |
    ⟨c, action, _, _, _, rfl⟩ | ⟨c, action, client, issues, hl, _, hact, rfl⟩
  · exact .inl ⟨rfl, le_refl _⟩
  · exact .inr (.inl ⟨sender, hl, hnet, rfl⟩)
  · exact .inl ⟨rfl, by simp⟩
  · exact .inr (.inr ⟨c, action, client, issues, hl, hact, rfl, by simp⟩)

/-- What a step does to one client: nothing, a crash, or an event. -/
theorem step_client (h : s.step world l = some s') (c : ClientId) :
    s'.client c = s.client c ∨ s'.client c = { s.client c with crashed := true } ∨
    ∃ action issues, l = .act c action ∧
      (s.client c).act (s.env world c (action.ends s.now)) action =
        some (.done (s'.client c) issues) := by
  rcases step_cases h with ⟨_, _, _, rfl⟩ | ⟨_, _, _, _, rfl⟩ |
    ⟨actor, action, _, _, _, rfl⟩ | ⟨actor, action, client, issues, hl, _, hact, rfl⟩
  · exact .inl rfl
  · exact .inl rfl
  · by_cases hc : c = actor
    · subst hc
      exact .inr (.inl (by simp))
    · exact .inl (react_client_ne hc _ _)
  · by_cases hc : c = actor
    · subst hc
      exact .inr (.inr ⟨action, issues, hl, by simpa using hact⟩)
    · exact .inl (react_client_ne hc _ _)

theorem step_states (h : s.step world l = some s') {db : Database} (hdb : db ∈ s.states) :
    db ∈ s'.states := by
  rcases step_net h with ⟨hnet, _⟩ | ⟨_, _, hnet, _⟩ | ⟨_, _, _, _, _, _, hnet, _⟩
  · simpa only [states, hnet] using hdb
  · exact Outbox.Net.mem_states_of_deliver hnet hdb
  · simpa only [states, hnet, Outbox.Net.issue_states] using hdb

end System

/-- What the tab bar keeps when a tab is selected or a details screen popped. -/
structure TabBar.Keeps (bar bar' : TabBar) : Prop where
  homeFeed : bar'.homeFeed = bar.homeFeed
  homeFeedDetails : bar'.homeFeedDetails = bar.homeFeedDetails ∨ bar'.homeFeedDetails = none
  yourListing : bar'.yourListing = bar.yourListing
  yourListingsDetails :
    bar'.yourListingsDetails = bar.yourListingsDetails ∨ bar'.yourListingsDetails = none
  auctionWon : bar'.auctionWon = bar.auctionWon

namespace Client

/-- The writes that an event issues. -/
inductive Issues (env : Env) (client : Client) : Action → List Issue → Prop where
  | silent (action : Action) : Issues env client action []
  | signUp (snapshot : Nat) (username password : String) (users : Database) :
      users ∈ env.snapshots →
      (∃ names, usernames users = some names ∧ username ∉ names) →
      Issues env client (.signUp snapshot username password)
        [⟨.setUser env.freshKey (SignUpViewController.userRecord username password),
          .signUp username⟩]
  | bid (text : String) (item : AuctionItem) (userName : String) (amount : Price) :
      client.selectedItem = some item → client.signedInUserName = some userName →
      client.bidOutcome env text = some (some (.bid amount)) →
      Issues env client (.bidSubmit text)
        (HomeFeedDetailsViewController.bidIssues item.uniqueKey amount userName)
  | delete (bar : TabBar) (shown : Key) (item : AuctionItem) :
      client.tabBar = some bar → bar.selectedIndex = .yourListing →
      bar.yourListingsDetails = some shown → client.selectedItem = some item →
      Issues env client .deleteListing
        [⟨.removeProduct item.uniqueKey, .deleteListing shown client.signedInUserName⟩]
  | auction (later : Date) (bar : TabBar) (record : ProductRecord) :
      client.tabBar = some bar →
      OpenNewAuctionViewController.submitAuction env.zone bar.form client.signedInUserName
        env.now env.later = some (.create record) →
      Issues env client (.submitAuction later)
        [⟨.setProduct env.freshKey record, .submitAuction client.signedInUserName⟩]
  | task (task snapshot : Nat) (pending : UserTask) (users : Database) (writes : List Write) :
      client.tasks[task]? = some pending → users ∈ env.snapshots →
      client.taskWrites pending.kind users = some (some writes) →
      Issues env client (.usersEvent task snapshot)
        (writes.map fun write => ⟨write, .userTask pending.author⟩)

variable {env : Env} {client client' : Client} {action : Action} {issues : List Issue}

theorem signUp_issues {snapshot : Nat} {username password : String}
    (h : client.signUp env snapshot username password = some (.done client' issues)) :
    client' = client ∧
      Issues env client (.signUp snapshot username password) issues := by
  simp only [signUp, Option.bind_eq_bind, Option.bind_eq_some_iff, Option.some.injEq,
    Reaction.orCrash_eq_done, Reaction.done.injEq] at h
  obtain ⟨users, husers, outcome, houtcome, rfl, rfl⟩ := h
  refine ⟨rfl, ?_⟩
  rcases SignUpViewController.record_of_signUpButton houtcome with hnone | ⟨hadded, hfree⟩
  · rw [hnone]
    exact .silent _
  · rw [hadded]
    exact .signUp _ _ _ users (List.mem_of_getElem? husers) hfree

theorem bidSubmit_issues {text : String}
    (h : client.bidSubmit env text = some (.done client' issues)) :
    client' = client ∧ Issues env client (.bidSubmit text) issues := by
  simp only [bidSubmit, Option.bind_eq_bind, Option.bind_eq_some_iff, Option.some.injEq,
    Reaction.orCrash_eq_done] at h
  obtain ⟨outcome, hopened, result, rfl, h⟩ := h
  cases result with
  | alert _ =>
      simp only [Reaction.done.injEq] at h
      obtain ⟨rfl, rfl⟩ := h
      exact ⟨rfl, .silent _⟩
  | bid amount =>
      simp only [Reaction.orCrash_eq_done, Reaction.done.injEq, bidTarget, Option.bind_eq_bind,
        Option.bind_eq_some_iff, Option.some.injEq] at h
      obtain ⟨_, ⟨item, hitem, userName, huser, rfl⟩, rfl, rfl⟩ := h
      exact ⟨rfl, .bid text item userName amount hitem huser hopened⟩

theorem deleteListing_issues (env : Env)
    (h : client.deleteListing = some (.done client' issues)) :
    ∃ bar, client.tabBar = some bar ∧
      client' = { client with tabBar := some { bar with yourListingsDetails := none } } ∧
      Issues env client .deleteListing issues := by
  simp only [deleteListing, YourListingsDetailsViewController.deleteListing, Option.bind_eq_bind,
    Option.bind_eq_some_iff, Option.ite_none_right_eq_some, Option.some.injEq,
    Reaction.orCrash_eq_done, Option.map_eq_some_iff, Reaction.done.injEq] at h
  obtain ⟨bar, hbar, product, hproduct, htab, _, ⟨item, hitem, rfl⟩, rfl, rfl⟩ := h
  exact ⟨bar, hbar, rfl, .delete bar product item hbar htab hproduct hitem⟩

/-- A press of `Submit_Auction`: an alert, or a product and a count of it. -/
theorem submitAuction_eq_done (h : client.submitAuction env = some (.done client' issues)) :
    (client' = client ∧ issues = []) ∨ ∃ bar record, client.tabBar = some bar ∧
      OpenNewAuctionViewController.submitAuction env.zone bar.form client.signedInUserName
        env.now env.later = some (.create record) ∧
      client' =
        { client with
          tasks := client.tasks ++ [⟨.countAuction, client.signedInUserName⟩]
          tabBar := some { bar with selectedIndex := .homeFeed } } ∧
      issues = [⟨.setProduct env.freshKey record, .submitAuction client.signedInUserName⟩] := by
  simp only [submitAuction, Option.bind_eq_bind, Option.bind_eq_some_iff,
    Option.ite_none_right_eq_some, Option.some.injEq, Reaction.orCrash_eq_done] at h
  obtain ⟨bar, hbar, _, outcome, houtcome, h⟩ := h
  cases outcome with
  | alert _ =>
      simp only [Reaction.done.injEq] at h
      exact .inl ⟨h.1.symm, h.2.symm⟩
  | create record =>
      simp only [Reaction.done.injEq] at h
      exact .inr ⟨bar, record, hbar, houtcome, h.1.symm, h.2.symm⟩

theorem submitAuction_issues (later : Date)
    (h : client.submitAuction env = some (.done client' issues)) :
    (client' = client ∨ ∃ bar, client' =
      { client with
        tasks := client.tasks ++ [⟨.countAuction, client.signedInUserName⟩]
        tabBar := some bar }) ∧
      Issues env client (.submitAuction later) issues := by
  rcases submitAuction_eq_done h with ⟨rfl, rfl⟩ | ⟨bar, record, hbar, hcreate, rfl, rfl⟩
  · exact ⟨.inl rfl, .silent _⟩
  · exact ⟨.inr ⟨_, rfl⟩, .auction later bar record hbar hcreate⟩

/-- A Users callback: the task that it completes, and what it writes. -/
theorem usersEvent_eq_done {task snapshot : Nat}
    (h : client.usersEvent env task snapshot = some (.done client' issues)) :
    ∃ pending users writes, client.tasks[task]? = some pending ∧
      env.snapshots[snapshot]? = some users ∧
      client.taskWrites pending.kind users = some (some writes) ∧
      client' = { client with tasks := client.tasks.eraseIdx task } ∧
      issues = writes.map fun write => ⟨write, .userTask pending.author⟩ := by
  simp only [usersEvent, Option.bind_eq_bind, Option.bind_eq_some_iff, Option.some.injEq,
    Reaction.orCrash_eq_done, Reaction.done.injEq] at h
  obtain ⟨pending, hpending, users, husers, _, hwrites, writes, rfl, rfl, rfl⟩ := h
  exact ⟨pending, users, writes, hpending, husers, hwrites, rfl, rfl⟩

theorem usersEvent_issues {task snapshot : Nat}
    (h : client.usersEvent env task snapshot = some (.done client' issues)) :
    client' = { client with tasks := client.tasks.eraseIdx task } ∧
      Issues env client (.usersEvent task snapshot) issues := by
  obtain ⟨pending, users, writes, hpending, husers, hwrites, rfl, rfl⟩ := usersEvent_eq_done h
  exact ⟨rfl, .task task snapshot pending users writes hpending
    (List.mem_of_getElem? husers) hwrites⟩

theorem act_eq_done (h : client.act env action = some (.done client' issues)) :
    client.crashed = false := by
  unfold act at h
  split at h
  · cases h
  · next hrunning => simpa using hrunning

theorem act_usersEvent {task snapshot : Nat}
    (h : client.act env (.usersEvent task snapshot) = some (.done client' issues)) :
    client.usersEvent env task snapshot = some (.done client' issues) := by
  have hrunning := act_eq_done h
  simpa only [act, hrunning, Bool.false_eq_true, if_false] using h

/-- Every event issues what `Issues` says. -/
theorem act_issues (h : client.act env action = some (.done client' issues)) :
    Issues env client action issues := by
  have hrunning := act_eq_done h
  simp only [act, hrunning, Bool.false_eq_true, if_false] at h
  cases action with
  | signUp => exact (signUp_issues h).2
  | bidSubmit => exact (bidSubmit_issues h).2
  | deleteListing =>
      obtain ⟨_, _, _, hissues⟩ := deleteListing_issues env h
      exact hissues
  | submitAuction => exact (submitAuction_issues _ h).2
  | usersEvent => exact (usersEvent_issues h).2
  | login =>
      simp only [login, Option.bind_eq_bind, Option.bind_eq_some_iff,
        Option.ite_none_left_eq_some, Option.some.injEq, Reaction.orCrash_eq_done] at h
      obtain ⟨_, _, _, outcome, _, h⟩ := h
      split at h <;>
        · simp only [Reaction.done.injEq] at h
          obtain ⟨_, rfl⟩ := h
          exact .silent _
  | _ =>
      simp only [signOut, selectTab, selectRow, popDetails, pullDownRefresh, productsEvent,
        detailsEvent, priceRead, onForm, profileImagePicked, profileUploadEnded,
        profileUsersEvent, profileProductsEvent, Option.bind_eq_bind, Option.bind_eq_some_iff,
        Option.ite_none_left_eq_some, Option.ite_none_right_eq_some, Option.some.injEq,
        Reaction.orCrash_eq_done, Reaction.done.injEq] at h
      obtain rfl : issues = [] := by grind
      exact .silent _

/-- The event delivers a price of the product: to the observer of a details
screen, or to the read of a Listings details screen. -/
def PriceEvent (client : Client) (action : Action) (product : Key) : Prop :=
  (∃ screen snapshot shown, action = .detailsEvent screen snapshot ∧
      client.detailScreens[screen]? = some shown ∧ shown.product = product) ∨
    (∃ read snapshot, action = .priceRead read snapshot ∧
      client.priceReads[read]? = some product)

/-- How the `AuctionItem` objects change: a list callback adds the items it
shows, and a price event writes one price of the database into the selected
item. -/
inductive HeapStep (env : Env) (client : Client) : Action → Heap → Prop where
  | same (action : Action) : HeapStep env client action client.heap
  | list (screen snapshot : Nat) (shown : ListScreen) (db : Database)
      (items : List AuctionItem) :
      client.listScreens[screen]? = some shown → db ∈ env.snapshots →
      client.retrieveData env shown.kind db = some items →
      HeapStep env client (.productsEvent screen snapshot) (client.heap ++ items)
  | price (action : Action) (product : Key) (db : Database) (price : Price) :
      client.PriceEvent action product →
      db ∈ env.snapshots → db.highestbidprice product = some price →
      HeapStep env client action
        (client.heap.setPrice client.selectedToViewAuctionItem price)

theorem productPrice {db : Database} {product : Key} {record : ProductRecord} {price : Price}
    (hrecord : db.products.lookup product = some record)
    (hprice : record .highestbidprice = some (.number price)) :
    db.highestbidprice product = some price := by
  simp [Database.highestbidprice, Database.productField, hrecord, hprice]

theorem productsEvent_eq_done {screen snapshot : Nat}
    (h : client.productsEvent env screen snapshot = some (.done client' issues)) :
    ∃ shown db items, client.listScreens[screen]? = some shown ∧ db ∈ env.snapshots ∧
      client.retrieveData env shown.kind db = some items ∧
      client' = client.showItems screen items := by
  simp only [productsEvent, Option.bind_eq_bind, Option.bind_eq_some_iff,
    Option.ite_none_left_eq_some, Option.some.injEq, Reaction.orCrash_eq_done,
    Reaction.done.injEq] at h
  obtain ⟨shown, hshown, db, hdb, _, items, hitems, rfl, _⟩ := h
  exact ⟨shown, db, items, hshown, List.mem_of_getElem? hdb, hitems, rfl⟩

theorem act_productsEvent {screen snapshot : Nat}
    (h : client.act env (.productsEvent screen snapshot) = some (.done client' issues)) :
    client.productsEvent env screen snapshot = some (.done client' issues) := by
  have hrunning := act_eq_done h
  simpa only [act, hrunning, Bool.false_eq_true, if_false] using h

/-- A name whose record authenticates is a name of the snapshot. -/
theorem signIn_mem {username password : String}
    {pairs : List (Sigma fun _ : Key => UserRecord)} {found : List (Key × String)}
    (h : LoginViewController.signIn username password pairs = some found) :
    ∀ entry ∈ found, entry.2 = username ∧
      ∃ record, (⟨entry.1, record⟩ : Sigma fun _ : Key => UserRecord) ∈ pairs ∧
        record .Username = some (.string username) := by
  induction pairs generalizing found with
  | nil =>
      simp only [LoginViewController.signIn, Option.some.injEq] at h
      simp [← h]
  | cons pair rest ih =>
      simp only [LoginViewController.signIn, Option.bind_eq_bind, Option.bind_eq_some_iff,
        Option.some.injEq] at h
      obtain ⟨authentic, hauthentic, others, hothers, rfl⟩ := h
      have hrest := ih hothers
      intro entry hentry
      cases authentic with
      | false =>
          obtain ⟨hname, record, hmem, hstored⟩ := hrest entry (by simpa using hentry)
          exact ⟨hname, record, List.mem_cons_of_mem _ hmem, hstored⟩
      | true =>
          simp only [if_true, List.mem_cons] at hentry
          rcases hentry with rfl | hentry
          · refine ⟨rfl, pair.2, List.mem_cons_self, ?_⟩
            simp only [LoginViewController.authenticates, Option.bind_eq_bind,
              Option.bind_eq_some_iff, castString_eq_some] at hauthentic
            obtain ⟨name, hname, hauthentic⟩ := hauthentic
            split at hauthentic
            · next heq => rw [hname, heq]
            · simp at hauthentic
          · obtain ⟨hname, record, hmem, hstored⟩ := hrest entry hentry
            exact ⟨hname, record, List.mem_cons_of_mem _ hmem, hstored⟩

theorem submitLogin_session {users : Database} {username password : String}
    {outcome : LoginViewController.Outcome} {key : Key} {name : String}
    (h : LoginViewController.submitLogin users username password = some outcome)
    (hsession : outcome.session = some (key, name)) :
    name = username ∧ users.username key = some name := by
  simp only [LoginViewController.submitLogin, Option.bind_eq_bind, Option.bind_eq_some_iff,
    Option.some.injEq] at h
  obtain ⟨found, hfound, rfl⟩ := h
  obtain ⟨hname, record, hmem, hstored⟩ :=
    signIn_mem hfound _ (List.mem_of_getLast? hsession)
  refine ⟨hname, ?_⟩
  have hlookup : users.users.lookup key = some record := AList.mem_lookup_iff.mpr hmem
  dsimp only at hname
  simp [Database.username, Database.userField, hlookup, hname, hstored]

/-- A sign-in sets the session to a record of a snapshot and presents a fresh
tab bar. -/
theorem login_eq_done {snapshot : Nat} {username password : String}
    (h : client.login env snapshot username password = some (.done client' issues)) :
    client.tabBar = none ∧ (client' = client ∨ ∃ key db, db ∈ env.snapshots ∧
      db.username key = some username ∧ client' = client.presentMain env key username) := by
  simp only [login, Option.bind_eq_bind, Option.bind_eq_some_iff,
    Option.ite_none_left_eq_some, Option.some.injEq, Reaction.orCrash_eq_done] at h
  obtain ⟨users, husers, hbar, outcome, houtcome, h⟩ := h
  refine ⟨by simpa using hbar, ?_⟩
  split at h
  · simp only [Reaction.done.injEq] at h
    exact .inl h.1.symm
  · next key name hsession =>
    simp only [Reaction.done.injEq] at h
    obtain ⟨rfl, hstored⟩ := submitLogin_session houtcome hsession
    exact .inr ⟨key, users, List.mem_of_getElem? husers, hstored, h.1.symm⟩

@[simp] theorem pushDetails_signedInUserName (client : Client) (bar : TabBar) (ref : Ref)
    (item : AuctionItem) :
    (client.pushDetails bar ref item).signedInUserName = client.signedInUserName := by
  unfold pushDetails
  split <;> rfl

@[simp] theorem pushDetails_heap (client : Client) (bar : TabBar) (ref : Ref)
    (item : AuctionItem) : (client.pushDetails bar ref item).heap = client.heap := by
  unfold pushDetails
  split <;> rfl

@[simp] theorem pushDetails_listScreens (client : Client) (bar : TabBar) (ref : Ref)
    (item : AuctionItem) : (client.pushDetails bar ref item).listScreens = client.listScreens := by
  unfold pushDetails
  split <;> rfl

@[simp] theorem pushDetails_crashed (client : Client) (bar : TabBar) (ref : Ref)
    (item : AuctionItem) : (client.pushDetails bar ref item).crashed = client.crashed := by
  unfold pushDetails
  split <;> rfl

/-- Everything that an event can do to a client. -/
inductive Effect (env : Env) (client : Client) : Action → Client → Prop where
  | worked (action : Action) (tasks : List UserTask) :
      Effect env client action { client with tasks }
  | turned (action : Action) (tasks : List UserTask) (bar bar' : TabBar) :
      client.tabBar = some bar → bar.Keeps bar' →
      Effect env client action { client with tasks, tabBar := some bar' }
  | dismissed : Effect env client .signOut { client with tabBar := none }
  | presented (snapshot : Nat) (username password : String) (key : Key) (db : Database) :
      client.tabBar = none → db ∈ env.snapshots → db.username key = some username →
      Effect env client (.login snapshot username password) (client.presentMain env key username)
  | yourListing (bar : TabBar) :
      client.tabBar = some bar →
      Effect env client (.selectTab .yourListing)
        { client with
          listScreens := client.listScreens ++ [⟨.yourListing, 1, []⟩]
          tabBar := some
            { bar with
              selectedIndex := .yourListing
              yourListing := some client.listScreens.length } }
  | auctionWon (tasks : List UserTask) (bar : TabBar) :
      client.tabBar = some bar →
      Effect env client (.selectTab .auctionWon)
        { client with
          listScreens := client.listScreens ++ [⟨.auctionWon, 1, []⟩]
          tasks
          tabBar := some
            { bar with
              selectedIndex := .auctionWon
              auctionWon := some client.listScreens.length } }
  | profile (bar : TabBar) (shown : ProfileViewController.Screen) :
      client.tabBar = some bar →
      Effect env client (.selectTab .profile)
        { client with
          profileScreens := client.profileScreens ++ [shown]
          tabBar := some
            { bar with
              selectedIndex := .profile
              profile := some client.profileScreens.length } }
  | redrawn (action : Action) (screen : Nat) (shown : ProfileViewController.Screen) :
      Effect env client action
        { client with profileScreens := client.profileScreens.set screen shown }
  | pushed (row : Nat) (bar : TabBar) (screen : Nat) (list : ListScreen) (ref : Ref)
      (item : AuctionItem) :
      client.tabBar = some bar → visibleList bar = some screen →
      client.listScreens[screen]? = some list → list.auctionItemList[row]? = some ref →
      client.heap[ref]? = some item →
      Effect env client (.selectRow row) (client.pushDetails bar ref item)
  | refreshed (screen : Nat) :
      Effect env client .pullDownRefresh
        { client with
          listScreens := client.listScreens.modify screen fun list =>
            { list with observers := list.observers + 1 } }
  | listed (screen snapshot : Nat) (shown : ListScreen) (db : Database)
      (items : List AuctionItem) :
      client.listScreens[screen]? = some shown → db ∈ env.snapshots →
      client.retrieveData env shown.kind db = some items →
      Effect env client (.productsEvent screen snapshot) (client.showItems screen items)
  | priced (screen snapshot : Nat) (shown : HomeFeedDetailsViewController.Screen)
      (db : Database) (price : Price) (minimumBid : Option Price) :
      client.detailScreens[screen]? = some shown → env.snapshots[snapshot]? = some db →
      db.highestbidprice shown.product = some price →
      Effect env client (.detailsEvent screen snapshot)
        { client with
          heap := client.heap.setPrice client.selectedToViewAuctionItem price
          detailScreens := client.detailScreens.set screen { shown with minimumBid } }
  | priceRead (read snapshot : Nat) (product : Key) (db : Database) (price : Price) :
      client.priceReads[read]? = some product → env.snapshots[snapshot]? = some db →
      db.highestbidprice product = some price →
      Effect env client (.priceRead read snapshot)
        { client with
          heap := client.heap.setPrice client.selectedToViewAuctionItem price
          priceReads := client.priceReads.eraseIdx read }

theorem detailsEvent_effect {screen snapshot : Nat}
    (h : client.detailsEvent env screen snapshot = some (.done client' issues)) :
    Effect env client (.detailsEvent screen snapshot) client' := by
  simp only [detailsEvent, HomeFeedDetailsViewController.livePriceUpdate, Option.bind_eq_bind,
    Option.bind_eq_some_iff, Option.some.injEq, Reaction.orCrash_eq_done,
    Reaction.done.injEq, castDouble_eq_some] at h
  obtain ⟨shown, hshown, db, hdb, _, ⟨record, hrecord, _, _, price, hprice, _, _, rfl⟩,
    rfl, _⟩ := h
  exact .priced screen snapshot shown db price _ hshown hdb (productPrice hrecord hprice)

theorem priceRead_effect {read snapshot : Nat}
    (h : client.priceRead env read snapshot = some (.done client' issues)) :
    Effect env client (.priceRead read snapshot) client' := by
  simp only [priceRead, YourListingsDetailsViewController.priceRead, Option.bind_eq_bind,
    Option.bind_eq_some_iff, Option.some.injEq, Reaction.orCrash_eq_done,
    Reaction.done.injEq, castDouble_eq_some] at h
  obtain ⟨product, hproduct, db, hdb, _, ⟨record, hrecord, _, _, price, hprice, rfl⟩,
    rfl, _⟩ := h
  exact .priceRead read snapshot product db price hproduct hdb (productPrice hrecord hprice)

/-- A visit to the profile touches nothing but the profiles and the tab bar. -/
theorem loadProfile_eq_some {bar : TabBar} (h : client.loadProfile bar = some client') :
    ∃ profileScreens profile, client' =
      { client with
        profileScreens
        tabBar := some { bar with selectedIndex := .profile, profile } } := by
  unfold loadProfile at h
  split at h
  · obtain rfl := Option.some.inj h
    exact ⟨_, _, rfl⟩
  · obtain ⟨screen, _, rfl⟩ := Option.map_eq_some_iff.mp h
    exact ⟨_, _, rfl⟩

theorem selectTab_effect {tab : Tab}
    (h : client.selectTab env tab = some (.done client' issues)) :
    Effect env client (.selectTab tab) client' := by
  simp only [selectTab, Option.bind_eq_bind, Option.bind_eq_some_iff, Option.some.injEq,
    Reaction.orCrash_eq_done, Reaction.done.injEq] at h
  obtain ⟨bar, hbar, shown, hshown, rfl, _⟩ := h
  have hturned : ∀ bar' : TabBar, bar.Keeps bar' →
      Effect env client (.selectTab tab) { client with tabBar := some bar' } :=
    fun bar' hkeeps => .turned _ client.tasks bar bar' hbar hkeeps
  cases tab with
  | yourListing =>
      obtain rfl := Option.some.inj hshown
      simp only [loadYourListing]
      split
      · exact hturned _ ⟨rfl, .inl rfl, rfl, .inl rfl, rfl⟩
      · exact .yourListing bar hbar
  | auctionWon =>
      obtain rfl := Option.some.inj hshown
      simp only [loadAuctionWon]
      split
      · exact hturned _ ⟨rfl, .inl rfl, rfl, .inl rfl, rfl⟩
      · exact .auctionWon _ bar hbar
  | profile =>
      simp only [loadProfile] at hshown
      split at hshown
      · obtain rfl := Option.some.inj hshown
        exact hturned _ ⟨rfl, .inl rfl, rfl, .inl rfl, rfl⟩
      · obtain ⟨screen, _, rfl⟩ := Option.map_eq_some_iff.mp hshown
        exact .profile bar screen hbar
  | _ =>
      obtain rfl := Option.some.inj hshown
      exact hturned _ ⟨rfl, .inl rfl, rfl, .inl rfl, rfl⟩

theorem popDetails_effect (h : client.popDetails = some (.done client' issues)) :
    Effect env client .popDetails client' := by
  simp only [popDetails, Option.bind_eq_bind, Option.bind_eq_some_iff, Option.some.injEq,
    Reaction.done.injEq] at h
  obtain ⟨bar, hbar, rfl, _⟩ := h
  refine .turned _ client.tasks bar _ hbar ?_
  cases bar.selectedIndex with
  | homeFeed => exact ⟨rfl, .inr rfl, rfl, .inl rfl, rfl⟩
  | yourListing => exact ⟨rfl, .inl rfl, rfl, .inr rfl, rfl⟩
  | _ => exact ⟨rfl, .inl rfl, rfl, .inl rfl, rfl⟩

theorem onForm_effect {change : OpenNewAuctionViewController.Form →
    OpenNewAuctionViewController.Form} (action : Action)
    (h : client.onForm change = some (.done client' issues)) :
    Effect env client action client' := by
  simp only [onForm, Option.bind_eq_bind, Option.bind_eq_some_iff, Option.some.injEq,
    Reaction.done.injEq] at h
  obtain ⟨bar, hbar, rfl, _⟩ := h
  exact .turned _ client.tasks bar _ hbar ⟨rfl, .inl rfl, rfl, .inl rfl, rfl⟩

/-- Every event has one of these effects. -/
theorem act_effect (h : client.act env action = some (.done client' issues)) :
    Effect env client action client' := by
  have hrunning := act_eq_done h
  simp only [act, hrunning, Bool.false_eq_true, if_false] at h
  cases action with
  | signUp =>
      rw [(signUp_issues h).1]
      exact .worked _ client.tasks
  | login snapshot username password =>
      obtain ⟨hbar, rfl | ⟨key, db, hdb, hname, rfl⟩⟩ := login_eq_done h
      · exact .worked _ client'.tasks
      · exact .presented snapshot username password key db hbar hdb hname
  | signOut =>
      simp only [signOut, Option.bind_eq_bind, Option.bind_eq_some_iff,
        Option.ite_none_right_eq_some, Option.some.injEq, Reaction.done.injEq] at h
      obtain ⟨_, _, _, rfl, _⟩ := h
      exact .dismissed
  | selectTab tab => exact selectTab_effect h
  | selectRow row =>
      simp only [selectRow, Option.bind_eq_bind, Option.bind_eq_some_iff, Option.some.injEq,
        Reaction.done.injEq] at h
      obtain ⟨bar, hbar, screen, hscreen, list, hlist, ref, href, item, hitem, rfl, _⟩ := h
      exact .pushed row bar screen list ref item hbar hscreen hlist href hitem
  | popDetails => exact popDetails_effect h
  | pullDownRefresh =>
      simp only [pullDownRefresh, Option.bind_eq_bind, Option.bind_eq_some_iff,
        Option.some.injEq, Reaction.done.injEq] at h
      obtain ⟨_, _, screen, _, rfl, _⟩ := h
      exact .refreshed screen
  | productsEvent screen snapshot =>
      obtain ⟨shown, db, items, hshown, hdb, hitems, rfl⟩ := productsEvent_eq_done h
      exact .listed screen snapshot shown db items hshown hdb hitems
  | detailsEvent => exact detailsEvent_effect h
  | priceRead => exact priceRead_effect h
  | bidSubmit =>
      rw [(bidSubmit_issues h).1]
      exact .worked _ client.tasks
  | deleteListing =>
      obtain ⟨bar, hbar, rfl, _⟩ := deleteListing_issues env h
      exact .turned _ client.tasks bar _ hbar ⟨rfl, .inl rfl, rfl, .inr rfl, rfl⟩
  | submitAuction =>
      rcases submitAuction_eq_done h with ⟨rfl, _⟩ | ⟨bar, _, hbar, _, rfl, _⟩
      · exact .worked _ client'.tasks
      · exact .turned _ _ bar _ hbar ⟨rfl, .inl rfl, rfl, .inl rfl, rfl⟩
  | profileImagePicked =>
      simp only [profileImagePicked, Option.bind_eq_bind, Option.bind_eq_some_iff,
        Option.ite_none_right_eq_some, Option.some.injEq, Reaction.done.injEq] at h
      obtain ⟨_, _, _, rfl, _⟩ := h
      exact .worked _ _
  | profileUploadEnded =>
      simp only [profileUploadEnded, Option.bind_eq_bind, Option.bind_eq_some_iff,
        Option.ite_none_right_eq_some, Option.some.injEq, Reaction.done.injEq] at h
      obtain ⟨_, _, _, rfl, _⟩ := h
      exact .worked _ _
  | usersEvent =>
      rw [(usersEvent_issues h).1]
      exact .worked _ _
  | profileUsersEvent =>
      simp only [profileUsersEvent, Option.bind_eq_bind, Option.bind_eq_some_iff,
        Option.some.injEq, Reaction.orCrash_eq_done, Reaction.done.injEq] at h
      obtain ⟨_, _, _, _, _, _, rfl, _⟩ := h
      exact .redrawn _ _ _
  | profileProductsEvent =>
      simp only [profileProductsEvent, Option.bind_eq_bind, Option.bind_eq_some_iff,
        Option.some.injEq, Reaction.orCrash_eq_done, Reaction.done.injEq] at h
      obtain ⟨_, _, _, _, _, _, rfl, _⟩ := h
      exact .redrawn _ _ _
  | _ => exact onForm_effect _ h

theorem act_heap (h : client.act env action = some (.done client' issues)) :
    HeapStep env client action client'.heap := by
  cases act_effect h with
  | pushed row bar _ _ ref item =>
      rw [pushDetails_heap]
      exact .same _
  | listed screen snapshot shown db items hshown hdb hitems =>
      exact .list screen snapshot shown db items hshown hdb hitems
  | priced screen snapshot shown db price _ hshown hdb hprice =>
      exact .price _ shown.product db price (.inl ⟨screen, snapshot, shown, rfl, hshown, rfl⟩)
        (List.mem_of_getElem? hdb) hprice
  | priceRead read snapshot product db price hproduct hdb hprice =>
      exact .price _ product db price (.inr ⟨read, snapshot, rfl, hproduct⟩)
        (List.mem_of_getElem? hdb) hprice
  | _ => exact .same _

/-- The session changes only by a sign-in. -/
theorem act_session (h : client.act env action = some (.done client' issues)) :
    client'.signedInUserName = client.signedInUserName ∨
      ∃ snapshot username password key db, action = .login snapshot username password ∧
        db ∈ env.snapshots ∧ db.username key = some username ∧
        client' = client.presentMain env key username := by
  cases act_effect h with
  | presented snapshot username password key db _ hdb hname =>
      exact .inr ⟨snapshot, username, password, key, db, rfl, hdb, hname, rfl⟩
  | pushed => exact .inl (pushDetails_signedInUserName _ _ _ _)
  | _ => exact .inl rfl

/-- A client with a tab bar keeps its session: signing in needs the tab bar to be
dismissed. -/
theorem session_of_tabBar (hact : client.act env action = some (.done client' issues))
    {bar : TabBar} (hbar : client.tabBar = some bar) :
    client'.signedInUserName = client.signedInUserName := by
  cases act_effect hact with
  | presented _ _ _ _ _ hnone =>
      rw [hnone] at hbar
      cases hbar
  | pushed => exact pushDetails_signedInUserName _ _ _ _
  | _ => rfl

/-- An event that is dealt with does not crash the app. -/
theorem act_running (h : client.act env action = some (.done client' issues)) :
    client'.crashed = false := by
  have hrunning := act_eq_done h
  cases act_effect h with
  | pushed => rwa [pushDetails_crashed]
  | _ => exact hrunning

end Client

end Auctioneer
